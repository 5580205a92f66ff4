import DBStream.Native.IndexStatements
import DBStream.Native.TableRenames

/-!
# `CREATE TABLE`

`createTable` of `meta/metaDataCollection.cpp`.  The columns of the statement are the columns of
`tableDef`, whose flags say which of them are keys; the clauses for keys follow.
-/

namespace DBStream.Native.Meta

/-- `addKey`: a name, which is empty if there is none, and columns. -/
structure AddKey where
  name : String
  columnNames : List String
  deriving DecidableEq

/-- `struct createTableDDL`. -/
structure CreateTable where
  usedDb : String
  tableDef : TableMeta
  primaryKey : AddKey
  uniqueKeys : List AddKey
  indexs : List AddKey
  deriving DecidableEq

namespace TableMeta

/-- A step of `createTable`, and what follows it unless the step fails. -/
def unlessFailed (x : Exec (Int × TableMeta)) (next : TableMeta → Exec (Int × TableMeta)) :
    Exec (Int × TableMeta) := do
  let (r, t) ← x
  if r ≠ 0 then return (-1, t) else next t

/-- The key on one column, if the column has a flag. -/
def addColumnKey (idx : Nat) (flag : ColumnMeta → Bool) (keyType : KeyType) (t : TableMeta) :
    Exec (Int × TableMeta) := do
  let c ← tableAt t.m_columns idx
  if flag c then
    if keyType = .PRIMARY_KEY then t.createPrimaryKey [c.m_columnName]
    else t.addIndex c.m_columnName [c.m_columnName] keyType
  else return (0, t)

/-- What the loop of `createTable` does first with a column. -/
def fillCharset (t : TableMeta) (idx : Nat) : Exec TableMeta := do
  let c ← tableAt t.m_columns idx
  let c ← t.withCharset c
  return { t with m_columns := t.m_columns.set idx c }

/-- What it does last. -/
def fillCharsetAgain (idx : Nat) (t : TableMeta) : Exec (Int × TableMeta) := do
  let c ← tableAt t.m_columns idx
  if c.m_columnType.info.stringType ∧ c.m_charset = none then
    return (0, { t with m_columns := t.m_columns.set idx { c with m_charset := t.m_charset } })
  else return (0, t)

/-- One turn of the loop over the columns.  A unique key sets the flag that is read after it. -/
def columnTurn (t : TableMeta) (idx : Nat) : Exec (Int × TableMeta) := do
  let t ← t.fillCharset idx
  unlessFailed (t.addColumnKey idx ColumnMeta.m_isPrimary .PRIMARY_KEY) fun t =>
    unlessFailed (t.addColumnKey idx ColumnMeta.m_isUnique .UNIQUE_KEY) fun t =>
      unlessFailed (t.addColumnKey idx ColumnMeta.m_isIndex .INDEX) (fillCharsetAgain idx)

/-- The loop over the columns. -/
def columnLoop : TableMeta → List Nat → Exec (Int × TableMeta)
  | t, [] => .ok (0, t)
  | t, idx :: rest => unlessFailed (t.columnTurn idx) fun t => columnLoop t rest

/-- The loops over the clauses for unique keys and indexes. -/
def addKeys (keyType : KeyType) : List AddKey → TableMeta → Exec (Int × TableMeta)
  | [], t => .ok (0, t)
  | k :: ks, t => unlessFailed (t.addIndex k.name k.columnNames keyType) (addKeys keyType ks)

/-- The clause for the primary key, if there is one. -/
def addPrimaryKey (k : AddKey) (t : TableMeta) : Exec (Int × TableMeta) :=
  if k.columnNames = [] then .ok (0, t) else t.createPrimaryKey k.columnNames

/-- The part of `createTable` that makes the keys. -/
def createKeys (t : TableMeta) (table : CreateTable) : Exec (Int × TableMeta) :=
  unlessFailed (t.columnLoop (List.range t.columnsCount)) fun t =>
    unlessFailed (t.addPrimaryKey table.primaryKey) fun t =>
      unlessFailed (addKeys .UNIQUE_KEY table.uniqueKeys t) (addKeys .INDEX table.indexs)

end TableMeta

namespace MetaDataCollection

def createTable (c : MetaDataCollection) (table : CreateTable) (originCheckPoint : Nat) :
    Exec (Int × MetaDataCollection) := do
  let tableMeta ← table.tableDef.copy
  match (AlterTable.nonEmpty tableMeta.m_dbName).or (AlterTable.nonEmpty table.usedDb) with
  | none =>
    tableMeta.delete
    return (-1, c)
  | some database =>
    let tableMeta := { tableMeta with m_dbName := database }
    let (currentDb, c) ← c.getDatabase database originCheckPoint
    match currentDb with
    | none =>
      tableMeta.delete
      return (-1, c)
    | some currentDb =>
      let tableMeta := { tableMeta with m_charset := tableMeta.m_charset.or currentDb.charset }
      let (r, tableMeta) ← tableMeta.createKeys table
      if r ≠ 0 then
        tableMeta.delete
        return (-1, c)
      else c.putVersion tableMeta.buildColumnOffsetList originCheckPoint

end MetaDataCollection

end DBStream.Native.Meta
