import DBStream.Native.KeyMeta

/-!
# Metadata of tables

`columnMeta` and `tableMeta` of `meta/metaData.{h,cpp}`, with the changes an `ALTER TABLE` makes.

An array with its count is a list.  A slot of the arrays of unique keys and indexes that was
allocated and never written is `none`.  A change returns `0` or `-1`; where it returns `-1` after
it has begun, the table it leaves is part of the result.  `m_alias`, `m_collate` of the table and
`userData`, which no function here reads, are left out.
-/

namespace DBStream.Native.Meta

structure CharsetInfo where
  name : String
  byteSizePerChar : Nat
  deriving DecidableEq

structure ColumnMeta where
  m_columnType : ColumnType
  m_columnName : String
  m_columnIndex : Nat := 0
  m_srcColumnType : Nat := 0
  m_collate : String := ""
  m_charset : Option CharsetInfo := none
  m_size : Nat := 0
  m_precision : Nat := 0
  m_decimals : Nat := 0
  m_setAndEnumValueList : List String := []
  m_signed : Bool := false
  m_nullable : Bool := true
  m_isPrimary : Bool := false
  m_isUnique : Bool := false
  m_isIndex : Bool := false
  m_generated : Bool := false
  deriving DecidableEq

/-- An array of keys with their names.  `dropUniqueKey` and `_dropIndex` free the array of the last
    key and keep the pointer. -/
structure KeyArray where
  keys : List (Option UnionKeyMeta × String) := []
  freed : Bool := false
  deriving DecidableEq

structure TableMeta where
  m_dbName : String := ""
  m_tableName : String := ""
  m_charset : Option CharsetInfo := none
  m_columns : List ColumnMeta := []
  m_realIndexInRowFormat : List Nat := []
  m_fixedColumnOffsetsInRecord : List Nat := [0]
  m_fixedColumnCount : Nat := 0
  m_varColumnCount : Nat := 0
  m_id : Nat := 0
  m_primaryKey : Option UnionKeyMeta := none
  m_uniqueKeys : KeyArray := {}
  m_indexs : KeyArray := {}
  caseSensitive : Bool := true
  deriving DecidableEq

/-- `nameCompare::compare` answers `0`. -/
def nameEq (caseSensitive : Bool) (src dest : String) : Bool :=
  if caseSensitive then src = dest else src.toLower = dest.toLower

/-! ## Layout of the columns -/

/-- The state of the loop of `buildColumnOffsetList`. -/
structure OffsetList where
  m_realIndexInRowFormat : List Nat := []
  m_fixedColumnOffsetsInRecord : List Nat := []
  m_fixedColumnCount : Nat := 0
  m_varColumnCount : Nat := 0
  fixedOffset : Nat := 0

/-- One turn of the loop of `buildColumnOffsetList`.  The offsets are stored as `uint16_t`. -/
def OffsetList.add (l : OffsetList) (t : ColumnType) : OffsetList :=
  if t.info.fixed then
    { l with
      m_realIndexInRowFormat := l.m_realIndexInRowFormat ++ [l.m_fixedColumnCount]
      m_fixedColumnOffsetsInRecord := l.m_fixedColumnOffsetsInRecord ++ [l.fixedOffset % 2 ^ 16]
      m_fixedColumnCount := l.m_fixedColumnCount + 1
      fixedOffset := l.fixedOffset + t.info.columnTypeSize }
  else
    { l with
      m_realIndexInRowFormat := l.m_realIndexInRowFormat ++ [l.m_varColumnCount]
      m_varColumnCount := l.m_varColumnCount + 1 }

namespace TableMeta

variable (t : TableMeta)

/-- `m_columnsCount`. -/
def columnsCount : Nat := t.m_columns.length

def buildColumnOffsetList : TableMeta :=
  let l := (t.m_columns.map ColumnMeta.m_columnType).foldl OffsetList.add {}
  { t with
    m_realIndexInRowFormat := l.m_realIndexInRowFormat
    m_fixedColumnOffsetsInRecord := l.m_fixedColumnOffsetsInRecord ++ [l.fixedOffset % 2 ^ 16]
    m_fixedColumnCount := l.m_fixedColumnCount
    m_varColumnCount := l.m_varColumnCount }

/-! ## Lookups -/

/-- `getColumn(const char *)`. -/
def getColumn (columnName : String) : Option ColumnMeta :=
  t.m_columns.find? fun c => nameEq t.caseSensitive c.m_columnName columnName

/-- The place of the first key with a name: `getUniqueKeyId`, `getIndexId`. -/
def keyId (a : KeyArray) (name : String) : Option Nat :=
  a.keys.findIdx? fun k => nameEq t.caseSensitive k.2 name

/-- `getUniqueKey`, `getIndex`: the key at the place, which has to be above `0`. -/
def getKey (a : KeyArray) (name : String) : Option (Option UnionKeyMeta) :=
  match t.keyId a name with
  | some (id + 1) => (a.keys[id + 1]?).map Prod.fst
  | _ => none

/-- Change a column through the pointer that `getColumn(uint16_t)` gives.  It tests
    `idx > m_columnsCount`, so that one column too many passes. -/
def modifyAt (columnId : Nat) (f : ColumnMeta → ColumnMeta) : Exec TableMeta :=
  if t.columnsCount < columnId then .error .nullDeref
  else if columnId = t.columnsCount then .error .outOfBounds
  else .ok { t with m_columns := t.m_columns.modify columnId f }

/-! ## Primary key -/

def dropPrimaryKey : Exec TableMeta :=
  match t.m_primaryKey with
  | none => .ok t
  | some k => do
    let t ← k.columnInfo.foldlM (fun t c => t.modifyAt c.columnId fun c =>
      { c with m_isPrimary := false }) t
    return { t with m_primaryKey := none }

/-- `createUnionKey`, or `nullptr`. -/
def createUnionKey (keyId : Nat) (keyType : KeyType) (columnIds : List Nat) :
    Option UnionKeyMeta := do
  let types ← columnIds.mapM fun id => do
    let c ← t.m_columns[id]?
    if c.m_columnType.info.asIndex then return c.m_columnType else none
  return {
    size := (types.map fun t => if t.info.fixed then t.info.columnTypeSize else 2).sum % 2 ^ 16
    fixed := types.all fun t => t.info.fixed
    keyType := keyType
    keyId := keyId % 2 ^ 8
    varColumnCount := (types.countP fun t => !t.info.fixed) % 2 ^ 8
    columnInfo := (types.zip columnIds).map fun p => ⟨p.1.code, p.2⟩ }

def createPrimaryKey (columns : List String) : Exec (Int × TableMeta) :=
  if 256 ≤ columns.length ∨ columns = [] then .ok (-1, t)
  else if t.m_primaryKey.isSome then .ok (-1, t)
  else
    match columns.mapM fun name => (t.getColumn name).map ColumnMeta.m_columnIndex with
    | none => .ok (-1, t)
    | some columnIds =>
      match t.createUnionKey 0 .PRIMARY_KEY columnIds with
      | none => .ok (-1, t)
      | some k => do
        let t := { t with m_primaryKey := some k }
        let t ← columnIds.foldlM (fun t id => t.modifyAt id fun c =>
          { c with m_isPrimary := true }) t
        return (0, t)

/-! ## Unique keys and indexes -/

/-- Whether one of the keys has the column. -/
def stillKey (columnId : Nat) : List (Option UnionKeyMeta × String) → Exec Bool
  | [] => .ok false
  | (none, _) :: _ => .error .uninitialized
  | (some k, _) :: rest =>
    if k.columnInfo.any fun c => c.columnId = columnId then .ok true else stillKey columnId rest

/-- The array without the key at `idx`.  The loop over the keys behind it stops in front of the
    last one, so the last slot of the new array is not written. -/
def withoutKey (keys : List (Option UnionKeyMeta × String)) (idx : Nat) :
    Exec (List (Option UnionKeyMeta × String)) := do
  let behind ← (keys.drop (idx + 1)).dropLast.mapM fun k => match k with
    | (none, _) => .error .uninitialized
    | (some key, name) => .ok (some { key with keyId := sub8 key.keyId 1 }, name)
  return keys.take idx ++ behind ++ if idx + 1 < keys.length then [(none, "")] else []

/-- What `dropUniqueKey` and `_dropIndex` share: the array without its key `idx`, and the table with
    the flags of the columns of the key cleared by `clearLast` when it was the only key, and else by
    `clear` where no other key has the column. -/
def dropKeyAt (a : KeyArray) (idx : Nat) (clearLast clear : ColumnMeta → ColumnMeta) :
    Exec (KeyArray × TableMeta) := do
  let (key, _) ← tableAt a.keys idx
  match key with
  | none => throw .uninitialized
  | some key =>
    if a.keys.length = 1 then
      let t ← key.columnInfo.foldlM (fun t c => t.modifyAt c.columnId clearLast) t
      return ({ keys := [], freed := true }, t)
    else
      let keys ← withoutKey a.keys idx
      let t ← key.columnInfo.foldlM (fun t c => do
        if ← stillKey c.columnId keys then return t else t.modifyAt c.columnId clear) t
      return ({ keys := keys }, t)

def dropUniqueKey (ukName : String) : Exec (Int × TableMeta) :=
  match t.keyId t.m_uniqueKeys ukName with
  | none => .ok (-1, t)
  | some idx => do
    let clear := fun c : ColumnMeta => { c with m_isUnique := false }
    let (a, t) ← t.dropKeyAt t.m_uniqueKeys idx clear clear
    return (0, { t with m_uniqueKeys := a })

/-- `dropIndex` with `_dropIndex`, which clears `m_isIndex` of the columns of an only key of either
    kind. -/
def dropIndex (indexName : String) : Exec (Int × TableMeta) :=
  let clearIndex := fun c : ColumnMeta => { c with m_isIndex := false }
  match t.keyId t.m_indexs indexName with
  | some idx => do
    let (a, t) ← t.dropKeyAt t.m_indexs idx clearIndex clearIndex
    return (0, { t with m_indexs := a })
  | none =>
    match t.keyId t.m_uniqueKeys indexName with
    | some idx => do
      let (a, t) ← t.dropKeyAt t.m_uniqueKeys idx clearIndex fun c => { c with m_isUnique := false }
      return (0, { t with m_uniqueKeys := a })
    | none => .ok (-1, t)

/-- The loop of `addIndex` over the names of its columns, which marks the columns as it goes: their
    places, or nothing for a name that is not there. -/
def markColumns (mark : ColumnMeta → ColumnMeta) :
    TableMeta → List String → Exec (Option (List Nat) × TableMeta)
  | t, [] => .ok (some [], t)
  | t, name :: names =>
    match t.m_columns.findIdx? fun c => nameEq t.caseSensitive c.m_columnName name with
    | none => .ok (none, t)
    | some i => do
      let c ← tableAt t.m_columns i
      let (ids, t) ← markColumns mark { t with m_columns := t.m_columns.modify i mark } names
      return (ids.map (c.m_columnIndex :: ·), t)

/-- Whether `getIndex` or `getUniqueKey` finds the name. -/
def hasKey (name : String) : Bool :=
  (t.getKey t.m_indexs name).isSome || (t.getKey t.m_uniqueKeys name).isSome

/-- The name `addIndex` gives: the one it is called with, or that of the first column with the
    first number from 2 on that makes it new. -/
def indexNameOf (indexName column : String) : Exec String :=
  if indexName ≠ "" then .ok indexName
  else if ¬t.hasKey column then .ok column
  else
    -- each name that is taken is that of a key, so one more candidate than keys is enough
    let keyCount := t.m_indexs.keys.length + t.m_uniqueKeys.keys.length
    let candidates := (List.range (keyCount + 1)).map fun i => column ++ "_" ++ toString (i + 2)
    match candidates.find? fun name => !t.hasKey name with
    | none => .error .endless
    | some name => .ok name

/-- `addIndex` with `_addIndex`. -/
def addIndex (indexName : String) (columns : List String) (keyType : KeyType) :
    Exec (Int × TableMeta) := do
  if 256 ≤ columns.length then return (-1, t)
  match columns with
  | [] => return (-1, t)
  | column :: _ =>
    if keyType = .PRIMARY_KEY then return (-1, t)
    if indexName ≠ "" ∧ t.hasKey indexName then return (-1, t)
    let (ids, t) ← markColumns (fun c =>
      if keyType = .UNIQUE_KEY then { c with m_isUnique := true }
      else { c with m_isIndex := true }) t columns
    match ids with
    | none => return (-1, t)
    | some columnIds =>
      let name ← t.indexNameOf indexName column
      match t.createUnionKey t.m_indexs.keys.length keyType columnIds with
      | none => return (-1, t)
      | some index =>
        let t ← columnIds.foldlM (fun t id => t.modifyAt id fun c => { c with m_isIndex := true }) t
        if keyType = .UNIQUE_KEY then
          return (0, { t with m_uniqueKeys := { keys := t.m_uniqueKeys.keys ++ [(some index, name)] } })
        else return (0, { t with m_indexs := { keys := t.m_indexs.keys ++ [(some index, name)] } })

/-- `renameIndex`, which takes the `keyId` of the index for its place. -/
def renameIndex (oldName newName : String) : Exec (Int × TableMeta) :=
  match t.getKey t.m_indexs oldName with
  | none => .ok (-1, t)
  | some k =>
    if nameEq t.caseSensitive oldName newName then .ok (0, t)
    else if (t.getKey t.m_indexs newName).isSome then .ok (-1, t)
    else
      match k with
      | none => .error .uninitialized
      | some k => do
        let (key, _) ← tableAt t.m_indexs.keys k.keyId
        return (0, { t with m_indexs := { t.m_indexs with
          keys := t.m_indexs.keys.set k.keyId (key, newName) } })

/-! ## Columns -/

/-- `updateKeysWhenColumnUpdate` on an array of keys. -/
def updateKeys (start dest : Nat) (newType : ColumnType) (a : KeyArray) : Exec KeyArray := do
  let keys ← a.keys.mapM fun k => match k with
    | (none, _) => .error .uninitialized
    | (some key, name) => do return (some (← key.columnUpdate start dest newType), name)
  return { a with keys := keys }

def updateKeysWhenColumnUpdate (start dest : Nat) (newType : ColumnType) : Exec TableMeta := do
  let pk ← t.m_primaryKey.mapM fun k => k.columnUpdate start dest newType
  let uniqueKeys ← updateKeys start dest newType t.m_uniqueKeys
  let indexs ← updateKeys start dest newType t.m_indexs
  return { t with m_primaryKey := pk, m_uniqueKeys := uniqueKeys, m_indexs := indexs }

/-- The loop of `dropColumn` over the unique keys.  It runs to the count of the moment: a key that
    has lost its last column is dropped by its name, and the array gets shorter. -/
def dropFromUniqueKeys (columnIndex : Nat) : Exec TableMeta :=
  (List.range t.m_uniqueKeys.keys.length).foldlM (fun t idx =>
    match t.m_uniqueKeys.keys[idx]? with
    | none => .ok t
    | some (none, _) => .error .uninitialized
    | some (some k, name) => do
      let k ← k.dropColumn UnionKeyMeta.removeFromUnique columnIndex
      let t := { t with m_uniqueKeys := { t.m_uniqueKeys with
        keys := t.m_uniqueKeys.keys.set idx (some k, name) } }
      if k.columnInfo = [] then do
        let (_, t) ← t.dropUniqueKey name
        return t
      else return t) t

/-- What `dropColumn` does to the primary key. -/
def dropFromPrimaryKey (columnIndex : Nat) : Exec TableMeta :=
  match t.m_primaryKey with
  | none => .ok t
  | some k => do
    let k ← k.dropColumn UnionKeyMeta.removeFromPrimary columnIndex
    let t := { t with m_primaryKey := some k }
    if k.columnInfo = [] then t.dropPrimaryKey else return t

/-- `dropColumn(uint32_t)`.  The indexes are left as they are. -/
def dropColumnAt (columnIndex : Nat) : Exec (Int × TableMeta) :=
  if t.columnsCount ≤ columnIndex then .ok (-1, t)
  else do
    -- the columns are copied before the keys are changed
    let behind := (t.m_columns.drop (columnIndex + 1)).map fun c =>
      { c with m_columnIndex := sub16 c.m_columnIndex 1 }
    let columns := t.m_columns.take columnIndex ++ behind
    let t ← t.dropFromUniqueKeys columnIndex
    let t ← t.dropFromPrimaryKey columnIndex
    return (0, { t with m_columns := columns }.buildColumnOffsetList)

/-- `dropColumn(const char *)`. -/
def dropColumn (column : String) : Exec (Int × TableMeta) :=
  match t.getColumn column with
  | none => .ok (-1, t)
  | some d => t.dropColumnAt d.m_columnIndex

def renameColumn (oldName newName : String) : Exec (Int × TableMeta) :=
  match t.getColumn oldName with
  | none => .ok (-1, t)
  | some c =>
    if ¬nameEq t.caseSensitive oldName newName ∧ (t.getColumn newName).isSome then .ok (-1, t)
    else if t.columnsCount ≤ c.m_columnIndex then .error .outOfBounds
    else .ok (0, { t with
      m_columns := t.m_columns.modify c.m_columnIndex fun c => { c with m_columnName := newName } })

/-- A column with the charset of the table, when it is of a string type and has none. -/
def withCharset (c : ColumnMeta) : Exec ColumnMeta :=
  if c.m_columnType.info.stringType ∧ c.m_charset = none then
    if 0 < c.m_size then do
      let charset ← deref t.m_charset
      return { c with
        m_charset := some charset
        m_size := c.m_size * charset.byteSizePerChar % 2 ^ 32 }
    else .ok { c with m_charset := t.m_charset }
  else .ok c

/-- The columns with the one at `start` moved to `dest` and replaced by `column`. -/
def moveColumn (columns : List ColumnMeta) (start dest : Nat) (column : ColumnMeta) :
    List ColumnMeta :=
  ((columns.eraseIdx start).insertIdx dest column).mapIdx fun i c =>
    if min start dest ≤ i ∧ i ≤ max start dest then { c with m_columnIndex := i } else c

/-- What `modifyColumn` and `changeColumn` do with the column `old`. -/
def replaceColumn (old column : ColumnMeta) (first : Bool) (addAfter : Option String) :
    Exec (Int × TableMeta) :=
  if (old.m_isPrimary ∨ old.m_isUnique ∨ old.m_isIndex) ∧ ¬column.m_columnType.info.asIndex then
    .ok (-1, t)
  else
    let idx := old.m_columnIndex
    let target : Option Nat :=
      if first then some 0
      else match addAfter with
        | none => some idx
        | some name => (t.getColumn name).map ColumnMeta.m_columnIndex
    match target with
    | none => .ok (-1, t)
    | some dest =>
      if t.columnsCount ≤ idx ∨ t.columnsCount ≤ dest then .error .outOfBounds
      else do
        let c ← t.withCharset { column with
          m_columnIndex := dest
          m_isPrimary := old.m_isPrimary
          m_isUnique := old.m_isUnique
          m_isIndex := old.m_isIndex }
        let t := { t with m_columns := moveColumn t.m_columns idx dest c }
        let t ← t.updateKeysWhenColumnUpdate idx dest column.m_columnType
        return (0, t.buildColumnOffsetList)

def modifyColumn (column : ColumnMeta) (first : Bool) (addAfter : Option String) :
    Exec (Int × TableMeta) :=
  match t.getColumn column.m_columnName with
  | none => .ok (-1, t)
  | some old => t.replaceColumn old column first addAfter

def changeColumn (newColumn : ColumnMeta) (columnName : String) (first : Bool)
    (addAfter : Option String) : Exec (Int × TableMeta) :=
  match t.getColumn columnName with
  | none => .ok (-1, t)
  | some old =>
    if ¬nameEq t.caseSensitive columnName newColumn.m_columnName ∧
        (t.getColumn newColumn.m_columnName).isSome then .ok (-1, t)
    else t.replaceColumn old newColumn first addAfter

/-- The place of a new column in `addColumn`: that of the column it should come after. -/
def addPlace (addAfter : Option String) (first : Bool) : Option Nat :=
  match addAfter with
  | some name => (t.getColumn name).map ColumnMeta.m_columnIndex
  | none => some (if first then 0 else t.columnsCount)

/-- `addColumn`.  The count of the columns is a `uint16_t`: behind 65535 columns it is 0 again. -/
def addColumn (column : ColumnMeta) (addAfter : Option String) (first : Bool) :
    Exec (Int × TableMeta) :=
  if (t.getColumn column.m_columnName).isSome then .ok (-1, t)
  else
    match t.addPlace addAfter first with
    | none => .ok (-1, t)
    | some idx =>
      if t.columnsCount < idx then .error .outOfBounds
      else do
        let c ← t.withCharset { column with m_columnIndex := idx }
        let behind := (t.m_columns.drop idx).map fun c =>
          { c with m_columnIndex := (c.m_columnIndex + 1) % 2 ^ 16 }
        let columnsCount := (t.columnsCount + 1) % 2 ^ 16
        let t := { t with
          m_columns := (t.m_columns.take idx ++ c :: behind).take columnsCount }
        let t ← if idx + 1 = columnsCount then pure t
          else t.updateKeysWhenColumnUpdate idx idx column.m_columnType
        return (0, t.buildColumnOffsetList)

/-! ## Charsets, copies -/

def defaultCharset (charset : Option CharsetInfo) : Exec (Int × TableMeta) :=
  if charset = none then .ok (-1, t) else .ok (0, { t with m_charset := charset })

def convertDefaultCharset (charset : Option CharsetInfo) : Exec (Int × TableMeta) :=
  if charset = none then .ok (-1, t)
  else .ok (0, { t with
    m_charset := charset
    m_columns := t.m_columns.map fun c =>
      if c.m_columnType.info.stringType then { c with m_charset := charset } else c })

/-- Every slot of an array of keys was written. -/
def allWritten (a : KeyArray) : Bool := a.keys.all fun k => k.1.isSome

/-- `operator=` into a new table. -/
def copy : Exec TableMeta :=
  if allWritten t.m_uniqueKeys ∧ allWritten t.m_indexs then
    .ok { t with
      m_uniqueKeys := { t.m_uniqueKeys with freed := false }
      m_indexs := { t.m_indexs with freed := false } }
  else .error .uninitialized

/-- The destructor, which frees the arrays of keys. -/
def delete : Exec Unit :=
  if t.m_uniqueKeys.freed ∨ t.m_indexs.freed then .error .dangling
  else if allWritten t.m_uniqueKeys ∧ allWritten t.m_indexs then .ok ()
  else .error .uninitialized

end TableMeta

end DBStream.Native.Meta

/-!
## Equality of table metadata

`operator==` of `unionKeyMeta` in `meta/columnType.h` and of `tableMeta` in `meta/metaData.cpp`.
`m_collate`, which the other functions of `tableMeta` do not read, is here a field of its own.
-/

namespace DBStream.Native.Meta

namespace UnionKeyMeta

/-- The bytes of a key; the structure is packed. -/
def bytes (k : UnionKeyMeta) : List UInt8 :=
  LE.bytes 2 k.columnInfo.length ++ LE.bytes 2 k.size ++ LE.bytes 1 k.fixed.toNat ++
    LE.bytes 1 k.keyType.ctorIdx ++ LE.bytes 1 k.keyId ++ LE.bytes 1 k.varColumnCount ++
    k.columnInfo.flatMap fun c => LE.bytes 1 c.type ++ LE.bytes 2 c.columnId

/-- `memSize`: the structure has 8 bytes and 3 for each column. -/
def memSize (keyCount : Nat) : Nat := 8 + 3 * keyCount

/-- `operator==`.  The size that `memcmp` gets is the answer of `memSize(columnCount) != 0`. -/
def eq (k dest : UnionKeyMeta) : Bool :=
  let size := (decide (memSize k.columnInfo.length ≠ 0)).toNat
  if k.columnInfo.length ≠ dest.columnInfo.length ∨ k.bytes.take size ≠ dest.bytes.take size then
    false
  else true

end UnionKeyMeta

/-- `tableMeta` with its collation. -/
structure CollatedTable extends TableMeta where
  m_collate : String := ""

namespace CollatedTable

variable (t dest : CollatedTable)

/-- The loop of `operator==` over the unique keys, and that over the indexes. -/
def eqKeys : List (Option UnionKeyMeta × String) → List (Option UnionKeyMeta × String) → Exec Bool
  | (some k, _) :: keys, (some d, _) :: dests => if k.eq d then eqKeys keys dests else .ok false
  | _ :: _, _ :: _ => .error .uninitialized
  | _, _ => .ok true

/-- `operator==`. -/
def eq : Exec Bool := do
  if t.caseSensitive ≠ dest.caseSensitive then return false
  if nameEq t.caseSensitive t.m_dbName dest.m_dbName = false ∨
      nameEq t.caseSensitive t.m_tableName dest.m_tableName = false ∨
      t.m_charset ≠ dest.m_charset ∨ t.m_collate ≠ dest.m_collate ∨
      t.m_fixedColumnCount ≠ dest.m_fixedColumnCount ∨
      t.m_indexs.keys.length ≠ dest.m_indexs.keys.length ∨
      t.m_uniqueKeys.keys.length ≠ dest.m_uniqueKeys.keys.length then return false
  if t.columnsCount ≠ dest.columnsCount then return false
  if t.m_columns ≠ dest.m_columns then return false
  let primaryKey ← deref t.m_primaryKey
  if primaryKey.eq (← deref dest.m_primaryKey) = false then return false
  if (← eqKeys t.m_uniqueKeys.keys dest.m_uniqueKeys.keys) = false then return false
  eqKeys t.m_indexs.keys dest.m_indexs.keys

end CollatedTable

end DBStream.Native.Meta
