import DBStream.Native.MetaDataCollection

/-!
# `CREATE INDEX` and `DROP INDEX`

`createIndex` and `dropIndex` of `meta/metaDataCollection.cpp`.  Both make a new `tableMeta`, which
has the case sensitivity of the table and nothing else of it.
-/

namespace DBStream.Native.Meta

/-- `tableDdl`, without its text. -/
structure TableDdl where
  usedDb : String
  database : String
  table : String
  deriving DecidableEq

def TableDdl.getDatabase (d : TableDdl) : Option String :=
  (AlterTable.nonEmpty d.database).or (AlterTable.nonEmpty d.usedDb)

/-- `struct createIndex`: whether the type of `index` is `ALTER_TABLE_ADD_UNIQUE_KEY`, its name and
    its columns. -/
structure CreateIndex extends TableDdl where
  unique : Bool
  name : String
  columnNames : List String
  deriving DecidableEq

/-- `struct dropIndex`. -/
structure DropIndex extends TableDdl where
  name : String
  deriving DecidableEq

namespace MetaDataCollection

variable (c : MetaDataCollection)

/-- The end of both statements: `put`, and `delete` of a version that could not be put. -/
def putVersion (newVersion : TableMeta) (originCheckPoint : Nat) :
    Exec (Int × MetaDataCollection) := do
  let (r, _, c) ← c.put newVersion.m_dbName newVersion.m_tableName (some newVersion)
    originCheckPoint
  if r ≠ 0 then
    newVersion.delete
    return (-1, c)
  else return (0, c)

def createIndex (table : CreateIndex) (originCheckPoint : Nat) :
    Exec (Int × MetaDataCollection) :=
  match table.getDatabase with
  | none => .ok (-1, c)
  | some database => do
    match ← c.get database table.table originCheckPoint with
    | none => return (-1, c)
    | some tableMeta =>
      -- `*meta` is not copied into it
      let newVersion : TableMeta := { caseSensitive := tableMeta.caseSensitive }
      let (ret, newVersion) ← newVersion.addIndex table.name table.columnNames
        (if table.unique then .UNIQUE_KEY else .INDEX)
      if ret ≠ 0 then
        newVersion.delete
        return (-1, c)
      else c.putVersion newVersion originCheckPoint

def dropIndex (table : DropIndex) (originCheckPoint : Nat) : Exec (Int × MetaDataCollection) :=
  match table.getDatabase with
  | none => .ok (-1, c)
  | some database => do
    match ← c.get database table.table originCheckPoint with
    | none => return (-1, c)
    | some tableMeta =>
      let newVersion : TableMeta := { caseSensitive := tableMeta.caseSensitive }
      let (ret, newVersion) ←
        if (newVersion.getKey newVersion.m_indexs table.name).isSome then
          newVersion.dropIndex table.name
        else if (newVersion.getKey newVersion.m_uniqueKeys table.name).isSome then
          newVersion.dropUniqueKey table.name
        else .ok (-1, newVersion)
      if ret ≠ 0 then
        newVersion.delete
        return (-1, c)
      else c.putVersion newVersion originCheckPoint

end MetaDataCollection

end DBStream.Native.Meta
