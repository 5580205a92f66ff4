import DBStream.Native.Block
import DBStream.Native.IndexKey

/-!
# The index of an appending block

`database/appendingIndex.{h,cpp}` and `appendingBlock::createSolidIndexPage`.

The skip list is the list of its nodes, each a key with its record ids, in the order of the lowest
level.  A search looks for the first node that is not before the key; where the comparison orders
the keys, the upper levels lead to the same node.
-/

namespace DBStream.Native

structure AppendingIndex where
  m_type : ColumnType
  m_ukMeta : UnionKeyMeta
  m_index : List (Key × List Nat) := []
  m_allCount : Nat := 0
  m_keyCount : Nat := 0
  m_varSize : Nat := 0
  deriving DecidableEq

namespace AppendingIndex

variable (F : FloatOps)

/-- The type of an index: `T_UNION` on several columns. -/
def typeOf (ukMeta : UnionKeyMeta) : ColumnType :=
  match ukMeta.columnInfo with
  | [c] => c.type
  | _ => .T_UNION

/-- The constructor, which has no list for `BINARY` and `TEXT`. -/
def create (ukMeta : UnionKeyMeta) : Exec AppendingIndex :=
  match typeOf ukMeta with
  | .T_BINARY | .T_TEXT => .error .abort
  | t => .ok { m_type := t, m_ukMeta := ukMeta }

/-! ## Comparison of keys -/

/-- `keyComparator`. -/
def compareKey (t : ColumnType) (ukMeta : UnionKeyMeta) (a b : Key) : Exec Int :=
  match t with
  | .T_UNION => UnionKey.compare F ukMeta a b
  | .T_BLOB | .T_STRING | .T_BINARY | .T_TEXT => .ok (binaryCompare a b)
  | .T_FLOAT | .T_DOUBLE => .ok (F.compare t a b)
  | t => .ok (compareInt (intValue t a) (intValue t b))

/-- The operator `>` of keys. -/
def greaterKey (t : ColumnType) (ukMeta : UnionKeyMeta) (a b : Key) : Exec Bool :=
  match t with
  | .T_FLOAT | .T_DOUBLE => .ok (F.greater t a b)
  | t => do return 0 < (← compareKey F t ukMeta a b)

/-- The operator `==` of keys. -/
def equalKey (t : ColumnType) (a b : Key) : Bool :=
  match t with
  | .T_FLOAT | .T_DOUBLE => F.equal t a b
  | _ => a == b

/-! ## The skip list -/

/-- `FindGreaterOrEqual`: the nodes before the key, and those from the first one that is not. -/
def findGreaterOrEqual (compare : Key → Key → Exec Int) (key : Key) :
    List (Key × List Nat) → Exec (List (Key × List Nat) × List (Key × List Nat))
  | [] => .ok ([], [])
  | node :: nodes => do
    if (← compare node.1 key) < 0 then
      let (before, behind) ← findGreaterOrEqual compare key nodes
      return (node :: before, behind)
    else return ([], node :: nodes)

/-- `appendIndex`: the nodes with the record id put under the key, and whether the key is new. -/
def appendNode (t : ColumnType) (ukMeta : UnionKeyMeta) (key : Key) (id : Nat)
    (nodes : List (Key × List Nat)) : Exec (List (Key × List Nat) × Bool) := do
  let (before, behind) ← findGreaterOrEqual (compareKey F t ukMeta) key nodes
  match behind with
  | [] => return (before ++ [(key, [id])], true)
  | node :: nodes =>
    if ← greaterKey F t ukMeta node.1 key then
      -- `Insert` asserts that the node it finds is not equal
      if (← compareKey F t ukMeta key node.1) = 0 then throw .assertFailed
      return (before ++ (key, [id]) :: node :: nodes, true)
    else if equalKey F t key node.1 then
      return (before ++ (node.1, node.2 ++ [id]) :: nodes, false)
    else throw .assertFailed

/-! ## Appending -/

variable (index : AppendingIndex)

/-- The key of an image of a row: `appendIndexByType`, `appendBinaryIndex` (whose size is a
    `uint16_t`) and `appendUnionIndex`. -/
def keyOf (r : Row) (old : Bool) : Exec Key :=
  match index.m_type, index.m_ukMeta.columnInfo with
  | .T_UNION, _ => UnionKey.ofRow index.m_ukMeta r old
  | .T_BLOB, [c] | .T_STRING, [c] | .T_BINARY, [c] | .T_TEXT, [c] =>
    .ok ((r.readVar old c).take ((r.readVar old c).length % 2 ^ 16))
  | _, [c] => r.readFixed old c
  | _, _ => .error .outOfBounds

/-- What a new key adds to `m_varSize`. -/
def varSizeOf (key : Key) : Nat :=
  match index.m_type with
  | .T_UNION => if index.m_ukMeta.fixed then 0 else LE.nat (key.take 2) - index.m_ukMeta.size
  | .T_BLOB | .T_STRING | .T_BINARY | .T_TEXT => key.length
  | _ => 0

/-- `appendIndex` for one image of a row. -/
def appendKey (r : Row) (old : Bool) (id : Nat) : Exec AppendingIndex := do
  let key ← index.keyOf r old
  let (nodes, newKey) ← appendNode F index.m_type index.m_ukMeta key id index.m_index
  if newKey then
    return { index with
      m_index := nodes
      m_keyCount := index.m_keyCount + 1
      m_varSize := index.m_varSize + index.varSizeOf key }
  else return { index with m_index := nodes }

/-- `append`: the key of the new image, and that of the old one where an update has changed it. -/
def append (r : Row) (id : Nat) : Exec AppendingIndex := do
  if r.keyUpdate index.m_ukMeta then
    let index ← index.appendKey F r false id
    let index ← index.appendKey F r true id
    return { index with m_allCount := index.m_allCount + 2 }
  else
    let index ← index.appendKey F r false id
    return { index with m_allCount := index.m_allCount + 1 }

/-- `find`: the newest record id of a key, or nothing for `-1`. -/
def find (key : Key) : Exec (Option Nat) := do
  let (_, behind) ← findGreaterOrEqual (compareKey F index.m_type index.m_ukMeta) key index.m_index
  match behind with
  | [] => return none
  | node :: _ =>
    if ← greaterKey F index.m_type index.m_ukMeta node.1 key then return none
    return node.2.getLast?

/-- `find` with the type of its answer, `int32_t`. -/
def findId (key : Key) : Exec Int := do
  match ← index.find F key with
  | none => return -1
  | some id => return toInt32 id

/-! ## The iterator -/

/-- `iterator::begin`: the nodes from the first one on, or nothing for `false`. -/
def seekToFirst : Option (List (Key × List Nat)) :=
  match index.m_index with
  | [] => none
  | node :: nodes => if node.2.length = 0 then none else some (node :: nodes)

def nextKey : List (Key × List Nat) → Option (List (Key × List Nat))
  | _ :: node :: nodes => some (node :: nodes)
  | _ => none

/-- What a loop `do … while (iter.nextKey())` sees. -/
def visitFrom : List (Key × List Nat) → List (Key × List Nat)
  | [] => []
  | node :: nodes => node :: if (nextKey (node :: nodes)).isSome then visitFrom nodes else []

/-- The keys and record ids from `begin()` on. -/
def visited : List (Key × List Nat) := (index.seekToFirst.map visitFrom).getD []

/-! ## The solid page -/

/-- `sizeof(solidIndexHead)`. -/
def solidIndexHeadSize : Nat := 12

/-- The size of a key in the fixed layout: of the type of the column, or of the union key. -/
def keySize (ukMeta : UnionKeyMeta) : Nat :=
  match ukMeta.columnInfo with
  | [c] => c.type.columnTypeSize
  | _ => ukMeta.size

/-- Whether the fixed layout is used. -/
def isFixed (ukMeta : UnionKeyMeta) : Bool :=
  match ukMeta.columnInfo with
  | [c] => c.type.fixed
  | _ => ukMeta.fixed

def toSolidIndexSize : Nat :=
  (if isFixed index.m_ukMeta then
    solidIndexHeadSize + (keySize index.m_ukMeta + 4) * (1 + index.m_keyCount) +
      4 * index.m_allCount + (index.m_allCount - index.m_keyCount) / 0x7f * 4
  else
    solidIndexHeadSize + (keySize index.m_ukMeta + 2 * 4) * (1 + index.m_keyCount) +
      (2 + 4) * index.m_allCount + index.m_varSize) % 2 ^ 32

/-- `pageSizeList` of `memory/bufferPool.h`. -/
def pageSizeList : List Nat :=
  [128, 256, 512, 4 * 1024, 8 * 1024, 12 * 1024, 16 * 1024, 32 * 1024, 64 * 1024, 128 * 1024,
    512 * 1024, 512 * 1024 + 512 * 1024 / 255 + 16]

/-- The room of the buffer that `bufferPool::alloc` answers a request with. -/
def bufferSize (size : Nat) : Nat := (pageSizeList.find? fun level => size ≤ level).getD size

def solidIndexHead (size keyCount : Nat) (type : ColumnType) (flag length : Nat) : List UInt8 :=
  LE.bytes 4 size ++ (LE.bytes 4 keyCount ++ (LE.bytes 1 type.code ++
    (LE.bytes 1 flag ++ LE.bytes 2 length)))

/-- An array of `uint32_t`. -/
def words (ids : List Nat) : List UInt8 := ids.flatMap (LE.bytes 4)

/-- The word behind a key in the fixed layout, with `off` the place the ids are put at. -/
def idWord (ids : List Nat) (off : Nat) : Nat :=
  match ids with
  | [id] => id
  | ids => if ids.length < 0x7f then ids.length <<< 24 ||| off else 0x80 <<< 24 ||| off

/-- What is put at that place. -/
def externOf (ids : List Nat) : List UInt8 :=
  match ids with
  | [_] => []
  | ids => if ids.length < 0x7f then words ids else LE.bytes 4 ids.length ++ words ids

/-- The slots of the fixed layout. -/
def fixedSlots : List (Key × List Nat) → Nat → List UInt8
  | [], _ => []
  | node :: nodes, off =>
    node.1 ++ (LE.bytes 4 (idWord node.2 off) ++
      fixedSlots nodes (off + (externOf node.2).length))

/-- `createFixedSolidIndex`: head, slots, room for one slot more, and the lists of ids. -/
def createFixedSolidIndex : List UInt8 :=
  let keySize := keySize index.m_ukMeta
  let externPos := solidIndexHeadSize + (keySize + 4) * (index.m_keyCount + 1)
  let lists := index.m_index.flatMap fun node => externOf node.2
  solidIndexHead (externPos + lists.length) index.m_keyCount index.m_type 1 keySize ++
    (fixedSlots index.m_index externPos ++ (List.replicate (keySize + 4) 0 ++ lists))

/-- A key in the variable layout: a union key has its length in front already. -/
def varKey (t : ColumnType) (key : Key) : List UInt8 :=
  if t = .T_UNION then key.take (2 + LE.nat (key.take 2)) else LE.bytes 2 key.length ++ key

/-- An entry of the variable layout. -/
def varEntry (t : ColumnType) (node : Key × List Nat) : List UInt8 :=
  varKey t node.1 ++ (LE.bytes 4 node.2.length ++ words node.2)

/-- The table of the places of the entries, with that of the end. -/
def varOffsets (t : ColumnType) : List (Key × List Nat) → Nat → List UInt8
  | [], off => LE.bytes 4 off
  | node :: nodes, off =>
    LE.bytes 4 off ++ varOffsets t nodes (off + (varEntry t node).length)

def createVarSolidIndex : List UInt8 :=
  let entries := index.m_index.flatMap (varEntry index.m_type)
  let entryPos := solidIndexHeadSize + 4 * (index.m_keyCount + 1)
  let type := if index.m_type = .T_UNION then .T_UNION else .T_BINARY
  solidIndexHead (entryPos + entries.length) index.m_keyCount type 0 4 ++
    (varOffsets index.m_type index.m_index entryPos ++ entries)

/-- `toString` into the buffer of the page.  The fixed layout of a `BLOB` index would hold its
    pointers. -/
def toString : Exec (List UInt8) :=
  if index.m_index = [] then .ok []
  else if index.m_type = .T_BLOB then .error .dangling
  else
    let data := if isFixed index.m_ukMeta then index.createFixedSolidIndex
      else index.createVarSolidIndex
    if data.length ≤ bufferSize index.toSolidIndexSize then .ok data else .error .outOfBounds

/-- `createSolidIndexPage`, which has no case for the types of dates and times. -/
def createSolidIndexPage : Exec (List UInt8) :=
  match index.m_type with
  | .T_DATETIME | .T_DATE | .T_YEAR | .T_TIME | .T_BINARY | .T_TEXT => .error .abort
  | _ => index.toString

end AppendingIndex

end DBStream.Native
