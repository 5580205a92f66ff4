import DBStream.Native.MetaDataCollection

/-!
# `RENAME TABLE`

Both `renameTable` of `meta/metaDataCollection.cpp`, and `getDatabase`.  The lists `src` and `dest` of
a statement have one length, so they are a list of pairs.
-/

namespace DBStream.Native.Meta

structure TableName where
  database : String
  table : String
  deriving DecidableEq

/-- `struct renameTable`. -/
structure RenameTable where
  usedDb : String
  tables : List (TableName × TableName)
  deriving DecidableEq

/-- The checkpoint that `get` and `getDatabase` use where they are not given one. -/
def maxCheckPoint : Nat := 2 ^ 64 - 1

namespace MetaDataCollection

variable (c : MetaDataCollection)

/-- `getDatabase`.  A database that comes from the server is put at the offset that comes with it, and
    once more at the checkpoint. -/
def getDatabase (database : String) (originCheckPoint : Nat) :
    Exec (Option DbInfo × MetaDataCollection) := do
  let currentDB ← match findName c.caseSensitive database c.m_dbs with
    | none => .ok none
    | some db => db.get originCheckPoint
  match currentDB with
  | some currentDB => return (some currentDB, c)
  | none =>
    match c.m_client.bind fun client => client.askDatabaseMeta database originCheckPoint with
    | none => return (none, c)
    | some (remote, offset) =>
      let currentDB := { remote with tables := [] }
      let (_, c) ← c.putDatabase remote.name offset currentDB
      let (_, c) ← c.putDatabase database originCheckPoint currentDB
      return (some currentDB, c)

/-- `renameTable(const char *, const char *, const char *, const char *, uint64_t)`. -/
def renameOne (srcDatabase srcTable destDatabase destTable : String) (originCheckPoint : Nat) :
    Exec (Int × MetaDataCollection) := do
  match ← c.get srcDatabase srcTable maxCheckPoint with
  | none => return (-1, c)
  | some src =>
    -- another database is not looked into
    let destExists ← if nameEq c.caseSensitive srcDatabase destDatabase ∧
        ¬nameEq c.caseSensitive srcTable destTable then
      (c.get destDatabase destTable maxCheckPoint).map Option.isSome else .ok false
    if destExists then return (-1, c)
    else
      let newTable ← src.copy
      let newTable := { newTable with m_tableName := destTable, m_dbName := destDatabase }
      let (r, _, c) ← c.put destDatabase destTable (some newTable) originCheckPoint
      if r ≠ 0 then
        newTable.delete
        return (-1, c)
      else
        -- the answer is not looked at
        let (_, _, c) ← c.put srcDatabase srcTable none originCheckPoint
        return (0, c)

end MetaDataCollection

/-- The database of a name, or nothing if none is selected. -/
def TableName.databaseOr (n : TableName) (usedDb : String) : Option String :=
  (AlterTable.nonEmpty n.database).or (AlterTable.nonEmpty usedDb)

namespace MetaDataCollection

/-- The first loop of `renameTable(const ddl *, uint64_t)`: whether all pairs pass. -/
def checkRenames (c : MetaDataCollection) (usedDb : String) :
    List (TableName × TableName) → Exec (Bool × MetaDataCollection)
  | [] => .ok (true, c)
  | (src, dest) :: rest =>
    match src.databaseOr usedDb, dest.databaseOr usedDb with
    | some db, some destDb => do
      if (← c.get db src.table maxCheckPoint).isNone then return (false, c)
      else
        let (currentDB, c) ← c.getDatabase destDb maxCheckPoint
        if currentDB.isNone then return (false, c)
        else if (← c.get destDb dest.table maxCheckPoint).isSome then return (false, c)
        else checkRenames c usedDb rest
    | _, _ => .ok (false, c)

/-- The second loop. -/
def runRenames (c : MetaDataCollection) (usedDb : String) (originCheckPoint : Nat) :
    List (TableName × TableName) → Exec MetaDataCollection
  | [] => .ok c
  | (src, dest) :: rest => do
    let db := if src.database = "" then usedDb else src.database
    let destDb := if dest.database = "" then usedDb else dest.database
    -- the answer is not looked at
    let (_, c) ← c.renameOne db src.table destDb dest.table originCheckPoint
    runRenames c usedDb originCheckPoint rest

/-- `renameTable(const ddl *, uint64_t)`. -/
def renameTable (c : MetaDataCollection) (tables : RenameTable) (originCheckPoint : Nat) :
    Exec (Int × MetaDataCollection) := do
  let (pass, c) ← c.checkRenames tables.usedDb tables.tables
  if pass then
    let c ← c.runRenames tables.usedDb originCheckPoint tables.tables
    return (0, c)
  else return (-1, c)

end MetaDataCollection

end DBStream.Native.Meta
