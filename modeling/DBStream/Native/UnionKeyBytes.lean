import DBStream.Native.SolidIndex

/-!
# Union keys as bytes

`operator==` and `hash` of `META::unionKey` in `meta/columnType.h`, which look at the bytes of a key
and at the size it carries, and `table<META::unionKey>::createKey` of `memKvDatabase/table.h`.
-/

namespace DBStream.Native

/-- One turn of the loop in `hashBinary`; a `char` is signed. -/
def hashStep (hash : Nat) (s : UInt8) : Nat :=
  let c := if 2 ^ 7 ≤ s.toNat then s.toNat + (2 ^ 32 - 2 ^ 8) else s.toNat
  hash ^^^ ((hash <<< 5 + c + hash >>> 2) % 2 ^ 32)

def hashBinary (d : List UInt8) : Nat := d.foldl hashStep 1315423911 &&& 0x7FFFFFFF

namespace UnionKey

open SolidIndex

variable (meta' : UnionKeyMeta)

/-- `*(uint16_t*)key`. -/
def sizeAt (key : Key) : Exec Nat := do return LE.nat (← bytesAt key 2)

def startOffset : Nat := if meta'.fixed then 0 else 2

/-- `operator==`.  `memcmp` is given all the bytes the size tells. -/
def equal (a b : Key) : Exec Bool := do
  if meta'.fixed then return (← bytesAt a meta'.size) == (← bytesAt b meta'.size)
  let size ← sizeAt a
  if size ≠ (← sizeAt b) then return false
  return (← bytesAt (a.drop 2) size) == (← bytesAt (b.drop 2) size)

/-- The bytes of a key `operator==` looks at, if the sizes are equal. -/
def equalBytes (key : Key) : Exec (List UInt8) := do
  if meta'.fixed then bytesAt key meta'.size
  else bytesAt key (2 + (← sizeAt key))

/-- The bytes of a key `hash` looks at.  Those of a variable key are counted from its length on. -/
def hashBytes (key : Key) : Exec (List UInt8) := do
  if meta'.fixed then bytesAt key meta'.size
  else bytesAt key (← sizeAt key)

def hash (key : Key) : Exec Nat := do return hashBinary (← hashBytes meta' key)

/-- The bytes of a key that `createVarSolidIndex<META::unionKey>` copies. -/
def solidBytes (key : Key) : Exec (List UInt8) := do bytesAt key (2 + (← sizeAt key))

def createKey (r : Row) : Exec Key :=
  let size := memSize meta' r false
  initKey meta' r false size (size + if meta'.fixed then 0 else 2)

end UnionKey

end DBStream.Native
