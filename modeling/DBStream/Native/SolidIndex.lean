import DBStream.ForStd.BinarySearch
import DBStream.Native.AppendingIndex

/-!
# The index of a solid block

`fixedSolidIndex` and `varSolidIndex` of `database/solidIndex.{h,cpp}`, which read a page that
`createFixedSolidIndex` or `createVarSolidIndex` has written.

A pointer into the page is the bytes of the page from there on.
-/

namespace DBStream.Native

namespace SolidIndex

variable (d : List UInt8)

/-- The page from a place on. -/
def pointer (pos : Nat) : Exec (List UInt8) :=
  if pos ≤ d.length then .ok (d.drop pos) else .error .outOfBounds

/-- A `uint32_t`. -/
def word (pos : Nat) : Exec Nat :=
  if pos + 4 ≤ d.length then .ok (LE.nat (d.slice pos 4)) else .error .outOfBounds

/-- An array of `uint32_t`. -/
def wordsAt (pos : Nat) : Nat → Exec (List Nat)
  | 0 => .ok []
  | n + 1 => do return (← word d pos) :: (← wordsAt (pos + 4) n)

/-- `head->keyCount`. -/
def getKeyCount : Nat := LE.nat (d.slice 4 4)

/-- `head->flag & SOLID_INDEX_FLAG_FIXED`. -/
def flagFixed : Bool := (LE.nat (d.slice 9 1)).testBit 0

/-- `head->length`, an `int16_t`. -/
def length : Int :=
  let n := LE.nat (d.slice 10 2)
  if 2 ^ 15 ≤ n then (n : Int) - 2 ^ 16 else n

end SolidIndex

namespace FixedSolidIndex

open SolidIndex

variable (d : List UInt8)

/-- The place of a slot; pointers and `size_t` are 64 bit words. -/
def slotPos (idx : Nat) : Nat :=
  ((AppendingIndex.solidIndexHeadSize + (length d + 4) * idx) % 2 ^ 64).toNat

def getKey (id : Nat) : Exec (List UInt8) := pointer d (slotPos d id)

def getRecordIdByIndex (idx : Nat) : Exec (List Nat) := do
  let idInfo ← word d (((slotPos d idx : Int) + length d) % 2 ^ 64).toNat
  if idInfo &&& 0xff000000 = 0 then return [idInfo]
  else if idInfo &&& 0x80000000 = 0 then wordsAt d (idInfo &&& 0x00ffffff) (idInfo >>> 24)
  else
    let count ← word d (idInfo &&& 0x00ffffff)
    wordsAt d ((idInfo &&& 0x00ffffff) + 4) count

end FixedSolidIndex

namespace VarSolidIndex

open SolidIndex

variable (d : List UInt8)

def getKey (id : Nat) : Exec (List UInt8) := do
  pointer d (← word d (AppendingIndex.solidIndexHeadSize + 4 * id))

/-- A key from where it starts in the page. -/
def readKey (t : ColumnType) (p : List UInt8) : Key :=
  if t = .T_UNION then p.take (2 + LE.nat (p.take 2)) else p.slice 2 (LE.nat (p.take 2))

def getRecordIdByIndex (idx : Nat) : Exec (List Nat) := do
  let pos ← word d (AppendingIndex.solidIndexHeadSize + 4 * idx)
  let size ← pointer d pos
  let ids := pos + LE.nat (size.take 2) + 2 + 4
  let count ← word d (ids - 4)
  wordsAt d ids count

end VarSolidIndex

namespace SolidIndex

variable (F : FloatOps) (d : List UInt8) (ukMeta : UnionKeyMeta)

/-- The first bytes behind a pointer. -/
def bytesAt (p : List UInt8) (n : Nat) : Exec (List UInt8) :=
  if n ≤ p.length then .ok (p.take n) else .error .outOfBounds

/-- The key at `getKey`, as long as its type and its metadata say. -/
def keyAt (t : ColumnType) (idx : Nat) : Exec Key := do
  if flagFixed d then
    bytesAt (← FixedSolidIndex.getKey d idx) (AppendingIndex.keySize ukMeta)
  else
    let p ← VarSolidIndex.getKey d idx
    let _ ← bytesAt p (2 + LE.nat (p.take 2))
    return VarSolidIndex.readKey t p

/-- The comparison of the key that is sought with one of the page. -/
def findCompare (t : ColumnType) (key k : Key) : Exec Int :=
  match t with
  | .T_FLOAT | .T_DOUBLE => .ok (F.find t key k)
  | t => AppendingIndex.compareKey F t ukMeta key k

/-- `find` with `equalOrGreater`, which asks for an equal key; nothing for `-1`.  `keyCount - 1` is
    an `int32_t`. -/
def find (t : ColumnType) (key : Key) : Exec (Option Nat) := do
  let (found, m, _, _) ← binarySearch Fault.endless (fun m => do
      let c ← findCompare F ukMeta t key (← keyAt d ukMeta t m.toNat)
      return if 0 < c then .gt else if c < 0 then .lt else .eq)
    (getKeyCount d + 1) 0 (toInt32 ((getKeyCount d : Int) - 1)) 0
  return if found then some m.toNat else none

/-- `find`, with what it makes of the bounds when there is no equal key; `find` above is the one with
    `equalOrGreater`. -/
def findPos (t : ColumnType) (key : Key) (equalOrGreater : Bool) : Exec Int := do
  let (found, m, s, e) ← binarySearch Fault.endless (fun m => do
      let c ← findCompare F ukMeta t key (← keyAt d ukMeta t m.toNat)
      return if 0 < c then .gt else if c < 0 then .lt else .eq)
    (getKeyCount d + 1) 0 (toInt32 ((getKeyCount d : Int) - 1)) 0
  if found then return m
  if equalOrGreater then return -1
  if e < 0 then return 0
  if s < toInt32 (getKeyCount d) then return s
  return m

end SolidIndex

end DBStream.Native
