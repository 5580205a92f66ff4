import DBStream.Native.MetaData
import DBStream.Native.TableIdTree

/-!
# The collection of the metadata

`metaDataCollection` of `meta/metaDataCollection.{h,cpp}`: its lookups, `put`, `purge` and
`alterTable`, with the statements of `meta/ddl.h` that `alterTable` reads.

A hash map whose keys are compared by `nameCompare` is the list of its entries.  A `dbInfo` is in
one version of its database, so the change of a table is made in place there.  What the server
answers a client, decoded, is a parameter (`RemoteClient`).
-/

namespace DBStream.Native.Meta

instance : HasMetaId TableMeta where
  m_id := TableMeta.m_id
  setId m i := { m with m_id := i }
  m_id_setId _ _ := rfl

/-! ## Maps by name -/

section

variable {V : Type} (caseSensitive : Bool)

/-- `find`. -/
def findName (name : String) (entries : List (String × V)) : Option V :=
  (entries.find? fun e => nameEq caseSensitive e.1 name).map Prod.snd

/-- Replace the value of the entry with a name. -/
def setName (name : String) (v : V) : List (String × V) → List (String × V)
  | [] => []
  | e :: entries =>
    if nameEq caseSensitive e.1 name then (e.1, v) :: entries else e :: setName name v entries

/-- `insert`, which leaves an entry that is there. -/
def insertName (name : String) (v : V) (entries : List (String × V)) : List (String × V) :=
  if (findName caseSensitive name entries).isSome then entries else entries ++ [(name, v)]

end

/-! ## Databases -/

structure DbInfo where
  name : String
  m_id : Nat := 0
  charset : Option CharsetInfo := none
  collate : String := ""
  tables : List (String × MetaTimeline TableMeta) := []
  deriving DecidableEq

instance : HasMetaId DbInfo where
  m_id := DbInfo.m_id
  setId m i := { m with m_id := i }
  m_id_setId _ _ := rfl

/-- What the server answers: a meta, or a database, with its log offset. -/
structure RemoteClient where
  askTableMeta : Nat → Option (TableMeta × Nat)
  askDatabaseMeta : String → Nat → Option (DbInfo × Nat)

structure MetaDataCollection where
  m_dbs : List (String × MetaTimeline DbInfo) := []
  m_allTables : TableIdTree TableMeta := TableIdTree.create
  m_client : Option RemoteClient := none
  m_maxTableId : Nat := 1
  caseSensitive : Bool := true

/-- Write back the meta that `findBefore` reads. -/
def MetaInfo.replaceBefore {T : Type} (originCheckPoint : Nat) (m : T) : MetaInfo T → MetaInfo T
  | null => null
  | freed => freed
  | version meta' startPos prev =>
    if startPos < originCheckPoint then version (some m) startPos prev
    else version meta' startPos (replaceBefore originCheckPoint m prev)

/-- Write back the meta that `get` reads. -/
def MetaTimeline.replaceAt {T : Type} (t : MetaTimeline T) (originCheckPoint : Nat) (m : T) :
    MetaTimeline T :=
  match t.m_current with
  | .version meta' startPos prev =>
    if startPos ≤ originCheckPoint then { t with m_current := .version (some m) startPos prev }
    else { t with m_current := .version meta' startPos (prev.replaceBefore originCheckPoint m) }
  | _ => t

namespace MetaDataCollection

variable (c : MetaDataCollection)

/-- `get(const char *, const char *, uint64_t)`. -/
def get (database table : String) (originCheckPoint : Nat) : Exec (Option TableMeta) :=
  match findName c.caseSensitive database c.m_dbs with
  | none => .ok none
  | some db => do
    match ← db.get originCheckPoint with
    | none => return none
    | some currentDB =>
      match findName c.caseSensitive table currentDB.tables with
      | none => return none
      | some metas => metas.get originCheckPoint

/-- `put(const char *, uint64_t, dbInfo *)`. -/
def putDatabase (database : String) (offset : Nat) (dbmeta : DbInfo) :
    Exec (Int × MetaDataCollection) :=
  match findName c.caseSensitive database c.m_dbs with
  | none => do
    let (_, _, db) ← (MetaTimeline.create offset).put (some dbmeta) offset
    return (0, { c with m_dbs := c.m_dbs ++ [(database, db)] })
  | some db => do
    let (r, _, db) ← db.put (some dbmeta) offset
    return (if r < 0 then -1 else 0,
      { c with m_dbs := setName c.caseSensitive database db c.m_dbs })

/-- The part of `put` that works on `currentDB`: its answer, the meta with its id, the database and
    the next table id. -/
def putIn (currentDB : DbInfo) (table : String) (meta' : Option TableMeta)
    (originCheckPoint : Nat) : Exec (Int × Option TableMeta × DbInfo × Nat) :=
  match findName c.caseSensitive table currentDB.tables with
  | some metas => do
    let (r, m, metas) ← metas.put meta' originCheckPoint
    -- the answer of `disableCurrent` is not looked at
    let r := if meta'.isSome ∧ r ≠ 0 then -1 else 0
    return (r, m, { currentDB with
      tables := setName c.caseSensitive table metas currentDB.tables }, c.m_maxTableId)
  | none => do
    let (_, m, metas) ← (MetaTimeline.create c.m_maxTableId).put meta' originCheckPoint
    match meta' with
    -- the new timeline is not stored
    | none => return (0, m, currentDB, c.m_maxTableId + 1)
    | some tableMeta => return (0, m, { currentDB with
        tables := insertName c.caseSensitive tableMeta.m_tableName metas currentDB.tables },
        c.m_maxTableId + 1)

/-- What `put` does at its end with the meta that was linked. -/
def addTable (m : Option TableMeta) : Exec MetaDataCollection :=
  match m with
  | none => .ok c
  | some m => do
    let tree ← c.m_allTables.put m
    return { c with m_allTables := tree }

/-- `put(const char *, const char *, tableMeta *, uint64_t)`: its answer, the meta with its id, and
    the collection.  `getDatabaseMetaFromRemote` puts the database before the table is put into it;
    here it is put with the table, which makes the same collection. -/
def put (database table : String) (meta' : Option TableMeta) (originCheckPoint : Nat) :
    Exec (Int × Option TableMeta × MetaDataCollection) :=
  match findName c.caseSensitive database c.m_dbs with
  | none =>
    match c.m_client.bind fun client => client.askDatabaseMeta database originCheckPoint with
    | none => .ok (-1, meta', c)
    | some (remote, offset) => do
      -- a database that has just been decoded has no tables
      let (_, m, currentDB, maxTableId) ←
        c.putIn { remote with tables := [] } table meta' originCheckPoint
      let (_, c) ← c.putDatabase remote.name offset currentDB
      let c ← { c with m_maxTableId := maxTableId }.addTable m
      return (0, m, c)
  | some db => do
    match ← db.get originCheckPoint with
    | none => throw .nullDeref
    | some currentDB =>
      let (r, m, currentDB, maxTableId) ← c.putIn currentDB table meta' originCheckPoint
      let c := { c with
        m_dbs := setName c.caseSensitive database (db.replaceAt originCheckPoint currentDB) c.m_dbs
        m_maxTableId := maxTableId }
      if r ≠ 0 then return (-1, m, c)
      else
        let c ← c.addTable m
        return (0, m, c)

/-- `get(uint64_t)` with `getTableMetaFromRemote`: the meta, and the collection, into which the meta
    is put if it comes from the server. -/
def getById (tableID : Nat) : Exec (Option TableMeta × MetaDataCollection) := do
  match ← c.m_allTables.get tableID with
  | some m => return (some m, c)
  | none =>
    match c.m_client.bind fun client => client.askTableMeta tableID with
    | none => return (none, c)
    | some (m, logOffset) =>
      let (_, m, c) ← c.put m.m_dbName m.m_tableName (some m) logOffset
      return (m, c)

def purge (originCheckPoint : Nat) : Exec MetaDataCollection := do
  let dbs ← c.m_dbs.mapM fun (name, db) => do
    let db ← db.purge originCheckPoint
    -- the loop over the tables of this database ends at `begin()`, so it purges none of them
    let _ ← db.get (2 ^ 64 - 1)
    return (name, db)
  return { c with m_dbs := dbs }

/-- `dropTable(const char *, const char *, uint64_t)`. -/
def dropTable (database table : String) (originCheckPoint : Nat) :
    Exec (Int × MetaDataCollection) := do
  match ← c.get database table originCheckPoint with
  | none => return (-1, c)
  | some _ =>
    let (r, _, c) ← c.put database table none originCheckPoint
    return (if r ≠ 0 then -1 else 0, c)

end MetaDataCollection

/-! ## `ALTER TABLE` -/

/-- A sub-command of an `ALTER TABLE`, `alterTableHead` with what follows it.  The names of columns
    to come after are empty where there is none. -/
inductive AlterCommand where
  | rename (destDatabase destTable : String)
  | addColumn (column : ColumnMeta) (first : Bool) (afterColumnName : String)
  | addColumns (columns : List ColumnMeta)
  | renameColumn (srcColumnName destColumnName : String)
  | modifyColumn (column : ColumnMeta) (first : Bool) (afterColumnName : String)
  | changeColumn (column : ColumnMeta) (srcColumnName : String) (first : Bool)
      (afterColumnName : String)
  | dropColumn (columnName : String)
  | addIndex (name : String) (columnNames : List String)
  | dropIndex (name : String)
  | renameIndex (srcKeyName destKeyName : String)
  | addUniqueKey (name : String) (columnNames : List String)
  | dropUniqueKey (name : String)
  | addPrimaryKey (columnNames : List String)
  | dropPrimaryKey
  | defaultCharset (charset : Option CharsetInfo)
  | convertDefaultCharset (charset : Option CharsetInfo)
  | other

/-- `struct alterTable`. -/
structure AlterTable where
  usedDb : String
  database : String
  table : String
  detail : List AlterCommand

namespace AlterTable

/-- A name, or nothing if it is empty. -/
def nonEmpty (name : String) : Option String := if name = "" then none else some name

def getDatabase (a : AlterTable) : Option String := (nonEmpty a.database).or (nonEmpty a.usedDb)

end AlterTable

namespace MetaDataCollection

variable (c : MetaDataCollection)

open AlterTable

/-- The loop of `alterTable` over the columns to add. -/
def addAllColumns : TableMeta → List ColumnMeta → Exec (Int × TableMeta)
  | t, [] => .ok (0, t)
  | t, column :: columns => do
    let (r, t) ← t.addColumn column none false
    if r ≠ 0 then return (r, t) else addAllColumns t columns

/-- The case of `ALTER_TABLE_RENAME`: the answer, the new version, and whether the table has another
    name. -/
def renameNewVersion (a : AlterTable) (database destDatabase destTable : String)
    (newVersion : TableMeta) (originCheckPoint : Nat) (renameTable : Bool) :
    Exec (Int × TableMeta × Bool) :=
  match (nonEmpty destDatabase).or (nonEmpty a.usedDb) with
  | none => .ok (-1, newVersion, renameTable)
  | some destDatabase => do
    let renamed := { newVersion with m_dbName := destDatabase, m_tableName := destTable }
    if nameEq c.caseSensitive database destDatabase ∧ nameEq c.caseSensitive destTable a.table then
      return (0, renamed, renameTable)
    else
      match ← c.get destDatabase destTable originCheckPoint with
      | some _ => return (-1, newVersion, true)
      | none => return (0, renamed, true)

/-- One turn of the loop of `alterTable`, a case for each sub-command. -/
def applyCommand (a : AlterTable) (database : String) (originCheckPoint : Nat)
    (newVersion : TableMeta) (renameTable : Bool) (command : AlterCommand) :
    Exec (Int × TableMeta × Bool) :=
  let change := fun x : Exec (Int × TableMeta) => do
    let (r, t) ← x
    return (r, t, renameTable)
  match command with
  | .rename destDatabase destTable =>
    c.renameNewVersion a database destDatabase destTable newVersion originCheckPoint renameTable
  | .addColumn column first after => change (newVersion.addColumn column (nonEmpty after) first)
  | .addColumns columns => change (addAllColumns newVersion columns)
  | .renameColumn src dest => change (newVersion.renameColumn src dest)
  | .modifyColumn column first after =>
    change (newVersion.modifyColumn column first (nonEmpty after))
  | .changeColumn column src first after =>
    change (newVersion.changeColumn column src first (nonEmpty after))
  | .dropColumn name => change (newVersion.dropColumn name)
  | .addIndex name columns => change (newVersion.addIndex name columns .INDEX)
  | .dropIndex name => change (newVersion.dropIndex name)
  | .renameIndex src dest => change (newVersion.renameIndex src dest)
  | .addUniqueKey name columns => change (newVersion.addIndex name columns .UNIQUE_KEY)
  | .dropUniqueKey name => change (newVersion.dropUniqueKey name)
  | .addPrimaryKey columns => change (newVersion.createPrimaryKey columns)
  | .dropPrimaryKey => change do return (0, ← newVersion.dropPrimaryKey)
  | .defaultCharset charset => change (newVersion.defaultCharset charset)
  | .convertDefaultCharset charset => change (newVersion.convertDefaultCharset charset)
  | .other => .ok (0, newVersion, renameTable)

/-- The loop of `alterTable`. -/
def applyCommands (a : AlterTable) (database : String) (originCheckPoint : Nat) :
    TableMeta → Bool → List AlterCommand → Exec (Int × TableMeta × Bool)
  | newVersion, renameTable, [] => .ok (0, newVersion, renameTable)
  | newVersion, renameTable, command :: commands => do
    let (ret, newVersion, renameTable) ←
      c.applyCommand a database originCheckPoint newVersion renameTable command
    if ret ≠ 0 then return (ret, newVersion, renameTable)
    else applyCommands a database originCheckPoint newVersion renameTable commands

def alterTable (a : AlterTable) (originCheckPoint : Nat) : Exec (Int × MetaDataCollection) :=
  match a.getDatabase with
  | none => .ok (-1, c)
  | some database => do
    match ← c.get database a.table originCheckPoint with
    | none => return (-1, c)
    | some tableMeta =>
      let newVersion ← tableMeta.copy
      let (ret, newVersion, renameTable) ←
        c.applyCommands a database originCheckPoint newVersion false a.detail
      -- the new version of a statement that fails is left behind
      if ret ≠ 0 then return (ret, c)
      else
        let (r, _, c) ← c.put newVersion.m_dbName newVersion.m_tableName (some newVersion)
          originCheckPoint
        if r ≠ 0 then
          newVersion.delete
          return (-1, c)
        else if renameTable then
          let (_, c) ← c.dropTable database a.table originCheckPoint
          return (0, c)
        else return (0, c)

end MetaDataCollection

end DBStream.Native.Meta
