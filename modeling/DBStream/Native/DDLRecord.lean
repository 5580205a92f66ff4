import DBStream.Native.Charset
import DBStream.Native.DMLRecord

/-!
# Records of statements

`DDLRecord` of `message/record.h`, and how `BinlogEventParser::ddl` makes one.  As for row images,
`data` is the address 0; `room` is what was allocated from there on, and an access behind it is a
fault.

| part | place |
|---|---|
| `recordHead` | 0 |
| `sqlMode`, charset id | 38, 46 |
| size of the database name with its NUL, the name | 48, 49 |
| `ddl` | behind the name |
-/

namespace DBStream.Native

/-- The bytes in front of the NUL of a C string. -/
def CString := { s : List UInt8 // 0 ∉ s }

/-- `DDLRecord`, with the memory its pointers go to. -/
structure DDLRecord where
  mem : RawMemory
  sqlMode : Nat
  charsetId : Nat
  database : Option Nat
  ddl : Nat

namespace DDLRecord

/-- A write of `d` at `p`. -/
def store (room : Nat) (mem : RawMemory) (p : Nat) (d : List UInt8) : Exec RawMemory :=
  if p + d.length ≤ room then .ok (mem.write p d) else .error .outOfBounds

/-- A read of the byte at `p`. -/
def byteAt (room : Nat) (mem : RawMemory) (p : Nat) : Exec UInt8 :=
  if p < room then .ok (mem p) else .error .outOfBounds

def init (room : Nat) (mem : RawMemory) : Exec RawMemory :=
  if recordHeadSize ≤ room then .ok (DMLRecord.init mem) else .error .outOfBounds

/-- The id of the charset in `create`. -/
def charsetOf (charset : Option CString) : Nat :=
  match charset with
  | none => CHARSET.ascii.id
  | some name =>
    match getCharset name.1 with
    | none => CHARSET.ascii.id
    | some ci => ci.id

/-- The database name in `create`: one byte for `strlen(database) + 1`, then so many bytes of it. -/
def storeDatabase (room : Nat) (mem : RawMemory) (p : Nat) (database : Option CString) :
    Exec RawMemory :=
  match database with
  | none => store room mem (p - 1) [0]
  | some name =>
    if 0 < name.1.length then do
      let mem ← store room mem (p - 1) (LE.bytes 1 (name.1.length + 1))
      store room mem p ((name.1 ++ [0]).take (mem.readWord 1 (p - 1)))
    else store room mem (p - 1) [0]

/-- The query in `create`, with a NUL where its last byte is none, and the size of the record.
    `querySize` is a `uint32_t`, and so is `querySize - 1`. -/
def storeQuery (room : Nat) (mem : RawMemory) (ddl : Nat) (query : List UInt8) (querySize : Nat) :
    Exec RawMemory := do
  let mem ← store room mem ddl (query.take querySize)
  let last ← byteAt room mem (ddl + (querySize + (2 ^ 32 - 1)) % 2 ^ 32)
  if last ≠ 0 then do
    let mem ← store room mem (ddl + querySize) [0]
    pure (mem.writeWord 4 0 (ddl + querySize + 1))
  else pure (mem.writeWord 4 0 (ddl + querySize))

def create (room : Nat) (mem : RawMemory) (charset : Option CString) (sqlMode : UInt64)
    (database : Option CString) (query : List UInt8) (querySize : Nat) : Exec DDLRecord := do
  let mem ← init room mem
  let headSize := mem.readWord 1 5
  let mem ← store room mem headSize (LE.bytes 8 sqlMode.toNat)
  let mem ← store room mem (headSize + 8) (LE.bytes 2 (charsetOf charset))
  let name := headSize + 8 + 2 + 1
  let mem ← storeDatabase room mem name database
  let ddl := name + mem.readWord 1 (name - 1)
  let mem ← storeQuery room mem ddl query querySize
  let noName := database.isNone || mem.readWord 1 (name - 1) == 0
  return { mem, sqlMode := sqlMode.toNat, charsetId := charsetOf charset, ddl
           database := if noName then none else some name }

def load (mem : RawMemory) : DDLRecord :=
  let headSize := mem.readWord 1 5
  let database := headSize + 8 + 2 + 1
  { mem
    sqlMode := mem.readWord 8 headSize
    charsetId := mem.readWord 2 (headSize + 8)
    database := some database
    ddl := database + mem.readWord 1 (database - 1) }

def allocSize (dataBaseSize ddlSize : Nat) : Nat :=
  (recordHeadSize + 8 + 2 + 1 + dataBaseSize + ddlSize + 2) % 2 ^ 32

variable (r : DDLRecord)

def size : Nat := r.mem.readWord 4 0

def databaseSize : Exec Nat := do
  return r.mem.readWord 1 ((← deref r.database) - 1)

def ddlSize : Nat := DMLRecord.sub32 r.size r.ddl

end DDLRecord

/-- `query.db.size()`. -/
def BinlogEventParser.dbSize (database : Option CString) : Nat :=
  match database with
  | none => 0
  | some name => name.1.length

/-- What `BinlogEventParser::ddl` allocates for the bytes of the record. -/
def BinlogEventParser.ddlRoom (database : Option CString) (query : List UInt8) : Nat :=
  DDLRecord.allocSize (dbSize database % 2 ^ 32) ((query.length + 1) % 2 ^ 32)

/-- The record of `BinlogEventParser::ddl`.  The parser gives an empty name where there is no
    database. -/
def BinlogEventParser.ddl (mem : RawMemory) (charset : Option CString) (sqlMode : UInt64)
    (database : Option CString) (query : List UInt8) : Exec DDLRecord :=
  DDLRecord.create (ddlRoom database query) mem charset sqlMode database query
    (query.length % 2 ^ 32)

end DBStream.Native
