import DBStream.ForStd.LinkedCells
import DBStream.Native.DMLRecord

/-!
# Conflicts of keys

`replicator/constraint.h`: the records that wait to be applied are found by the values of their keys.
Each key of a table has a map from its values, or from a hash of them, to the last node with the value;
the nodes before it are linked to it.  What `my_fcvt` writes is a parameter.
-/

namespace DBStream.Native.REPLICATOR

open Meta DMLRecord

/-! ## Hashes -/

def HASH_SEED : Nat := 31

/-- A word of `size` bytes, with a sign or without one, as a `uint64_t`. -/
def widen (size : Nat) (isSigned : Bool) (n : Nat) : Nat :=
  if isSigned ∧ 2 ^ (8 * size - 1) ≤ n then n + 2 ^ 64 - 2 ^ (8 * size) else n

/-- Both functions of this name: a text that ends with a byte 0 has its length.  A `char` has a sign. -/
def bkdrHash (hash : Nat) (key : List UInt8) : Nat :=
  key.foldl (fun hash c => (hash * HASH_SEED + widen 1 true c.toNat) % 2 ^ 32) hash

/-- The value of a column in an image of the record. -/
def keyColumn (record : DMLRecord) (newOrOld : Bool) (id : Nat) : Exec (Option Nat) :=
  if newOrOld then record.column id else record.oldColumnOfUpdateType id

/-- One turn of the loop of `getUnionKeyHash`. -/
def hashColumn (record : DMLRecord) (newOrOld : Bool) (hash : Nat) (c : Meta.UniqueKeyTypePair) :
    Exec Nat := do
  let type ← record.columnType c.columnId
  match ← keyColumn record newOrOld c.columnId with
  | none => return hash
  | some v =>
    if type.info.fixed then return bkdrHash hash (record.mem.read v type.info.columnTypeSize)
    else return bkdrHash hash (record.mem.read v (← record.varColumnSize c.columnId))

def getUnionKeyHash (record : DMLRecord) (key : Meta.UnionKeyMeta) (newOrOld : Bool) : Exec Nat :=
  key.columnInfo.foldlM (hashColumn record newOrOld) 0

/-- The types of `getHash` whose length is asked of the record. -/
def lengthTypes : List Meta.ColumnType :=
  [.T_STRING, .T_TEXT, .T_BINARY, .T_BLOB, .T_BYTE, .T_GEOMETRY, .T_JSON, .T_XML, .T_DECIMAL,
    .T_BIG_NUMBER]

/-- The text of a `float` or a `double`, of which the bytes are given, with some decimals. -/
abbrev Fcvt := List UInt8 → Nat → List UInt8

/-- Its hash, of a buffer of 256 bytes. -/
def hashText (my_fcvt : Fcvt) (value : List UInt8) (m_decimals : Nat) : Exec Nat :=
  let text := my_fcvt value m_decimals
  if text.length < 256 then .ok (bkdrHash 0 text) else .error .outOfBounds

def getHash (my_fcvt : Fcvt) (record : DMLRecord) (key : Meta.UnionKeyMeta) (newOrOld : Bool) :
    Exec Nat := do
  match key.columnInfo with
  | [c] =>
    match ← keyColumn record newOrOld c.columnId with
    | none => return 0
    | some value =>
      if c.type ∈ lengthTypes.map Meta.ColumnType.code then
        return bkdrHash 0 (record.mem.read value (← record.varColumnSize c.columnId))
      else if c.type = Meta.ColumnType.T_FLOAT.code then
        hashText my_fcvt (record.mem.read value 4) (← tableAt record.meta'.m_columns c.columnId).m_decimals
      else if c.type = Meta.ColumnType.T_DOUBLE.code then
        hashText my_fcvt (record.mem.read value 8) (← tableAt record.meta'.m_columns c.columnId).m_decimals
      else if (← tableAt columnInfos c.type).fixed then
        let type ← record.columnType c.columnId
        return bkdrHash 0 (record.mem.read value type.info.columnTypeSize)
      else return bkdrHash 0 (record.mem.read value (← record.varColumnSize c.columnId))
  | _ => getUnionKeyHash record key newOrOld

/-! ## Nodes -/

inductive BlockListNodeType where
  | NORMAL | HEAD | UNUSED
  deriving DecidableEq

/-- `blockListNode`.  `prev` and `value` are a union: the word is one or the other. -/
structure BlockListNode where
  word : Nat
  type : BlockListNodeType
  deriving DecidableEq

/-- The map of a key, and the nodes by their addresses. -/
structure KeyBucket where
  bucket : Cells Nat := []
  nodes : Nat → BlockListNode

namespace KeyBucket

variable (s : KeyBucket)

def setWord (node word : Nat) : KeyBucket :=
  { s with nodes := Function.update s.nodes node { s.nodes node with word := word } }

def setType (node : Nat) (type : BlockListNodeType) : KeyBucket :=
  { s with nodes := Function.update s.nodes node { s.nodes node with type := type } }

end KeyBucket

/-- The type that a macro is given. -/
structure VType where
  size : Nat
  isSigned : Bool
  deriving DecidableEq

def int8_t : VType := ⟨1, true⟩
def uint8_t : VType := ⟨1, false⟩
def int16_t : VType := ⟨2, true⟩
def uint16_t : VType := ⟨2, false⟩
def int32_t : VType := ⟨4, true⟩
def uint32_t : VType := ⟨4, false⟩
def int64_t : VType := ⟨8, true⟩
def uint64_t : VType := ⟨8, false⟩

/-- `v` is what the pointer goes to.  It is read for `value` first, and compared with `nullptr` for
    the key of the map only then. -/
def FIXED_INSERT (vtype : VType) (v : Option Nat) (blockNode : Nat) (s : KeyBucket) :
    Exec (Nat × KeyBucket) := do
  let s := s.setType blockNode .HEAD
  let value ← deref v
  let s := s.setWord blockNode (widen vtype.size vtype.isSigned value)
  match s.bucket.get value with
  | some prev =>
    let s := s.setWord prev blockNode
    let s := { s with bucket := Cells.put value blockNode s.bucket }
    return (prev, s.setType prev .NORMAL)
  | none =>
    let s := { s with bucket := Cells.put value blockNode s.bucket }
    return (blockNode, s.setType blockNode .HEAD)

/-- The types whose values are in the map; of the others it is a hash. -/
def insertType : Meta.ColumnType → Option VType
  | .T_INT32 => some int32_t
  | .T_UINT32 => some uint32_t
  | .T_INT64 => some int64_t
  | .T_UINT64 => some uint64_t
  | .T_STRING => none
  | .T_INT16 => some int16_t
  | .T_UINT16 => some uint16_t
  | .T_INT8 => some int8_t
  | .T_UINT8 => some uint8_t
  | .T_DATETIME | .T_TIMESTAMP | .T_TIME => some uint64_t
  | .T_YEAR | .T_ENUM => some uint16_t
  | .T_SET => some uint64_t
  | _ => none

/-- What it returns is `prev`. -/
def insertToBucket (my_fcvt : Fcvt) (record : DMLRecord) (blockNode : Nat) (key : Meta.UnionKeyMeta)
    (newOrOld : Bool) (s : KeyBucket) : Exec (Nat × KeyBucket) := do
  match key.columnInfo with
  | [c] =>
    let v ← keyColumn record newOrOld c.columnId
    match insertType (← record.columnType c.columnId) with
    | some vtype => FIXED_INSERT vtype (v.map (record.mem.readWord vtype.size)) blockNode s
    | none => FIXED_INSERT uint32_t (some (← getHash my_fcvt record key newOrOld)) blockNode s
  | _ => FIXED_INSERT uint32_t (some (← getUnionKeyHash record key newOrOld)) blockNode s

/-- The entry of the value in the node is erased.  Whether the map is empty then, and the map. -/
def FIXED_ERASE (type : VType) (blockNode : Nat) (s : KeyBucket) : Bool × KeyBucket :=
  let bucket := Cells.free ((s.nodes blockNode).word % 2 ^ (8 * type.size)) s.bucket
  (bucket.isEmpty, { s with bucket := bucket })

def eraseType : Meta.ColumnType → VType
  | .T_INT32 => int32_t
  | .T_UINT32 => uint32_t
  | .T_INT64 => int64_t
  | .T_UINT64 => uint64_t
  | .T_STRING => uint32_t
  | .T_INT16 => int16_t
  | .T_UINT16 => uint16_t
  | .T_INT8 => int8_t
  | .T_UINT8 => uint8_t
  | .T_DATETIME | .T_TIMESTAMP | .T_TIME => uint64_t
  | .T_YEAR | .T_ENUM => uint16_t
  | .T_SET => uint64_t
  | _ => uint32_t

def eraseKey (meta' : Meta.TableMeta) (blockNode : Nat) (key : Meta.UnionKeyMeta) (s : KeyBucket) :
    Exec (Bool × KeyBucket) := do
  match key.columnInfo with
  | [c] =>
    let type := (← tableAt meta'.m_columns c.columnId).m_columnType
    return FIXED_ERASE (eraseType type) blockNode s
  | _ => return FIXED_ERASE uint32_t blockNode s

end DBStream.Native.REPLICATOR
