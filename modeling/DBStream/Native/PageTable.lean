import DBStream.ForStd.Loops
import DBStream.Native.Record

/-!
# Page tables

`pageTable` of `util/pageTable.h`: a map from ids of 32 bits to pointers in three levels of tables.

A table has one pointer to it, so it is modelled in the place of that pointer; a pointer to a table
that was deleted is `freed`, and following it is a fault.  A null value is `none`.  The calls come
one after the other, so a compare-and-set that has just read its word succeeds.  What is given to
`destoryValueFunc` is part of the answers of `erase` and `purge`.
-/

namespace DBStream.Native.Util

/-- A pointer to a table. -/
inductive Child (α : Type) where
  | null
  | table (t : α)
  | freed

def PT_HIGH (id : BitVec 32) : BitVec 8 := (id >>> 24).setWidth 8

def PT_MID (id : BitVec 32) : BitVec 12 := ((id &&& 0x00fff000#32) >>> 12).setWidth 12

def PT_LOW (id : BitVec 32) : BitVec 12 := (id &&& 0x00000fff#32).setWidth 12

abbrev LowNode (V : Type) := BitVec 12 → Option V

abbrev MidNode (V : Type) := BitVec 12 → Child (LowNode V)

structure PageTable (V : Type) where
  root : BitVec 8 → Child (MidNode V) := fun _ => .null
  min : BitVec 32 := 0
  max : BitVec 32 := 0

namespace PageTable

variable {V : Type} (s : PageTable V)

/-- Follow a pointer that may be null. -/
def follow {α : Type} : Child α → Exec (Option α)
  | .null => .ok none
  | .table t => .ok (some t)
  | .freed => .error .dangling

/-- The tables that lead to the slot of an id. -/
def findLow (id : BitVec 32) : Exec (Option (MidNode V × LowNode V)) := do
  match ← follow (s.root (PT_HIGH id)) with
  | none => return none
  | some mid =>
    match ← follow (mid (PT_MID id)) with
    | none => return none
    | some low => return some (mid, low)

/-- Put a table with the slot of an id in its place. -/
def storeLow (id : BitVec 32) (mid : MidNode V) (low : LowNode V) : PageTable V :=
  { s with
    root := Function.update s.root (PT_HIGH id)
      (.table (Function.update mid (PT_MID id) (.table low))) }

/-- The first check of most operations. -/
def outOfRange (id : BitVec 32) : Bool := s.min > id || s.max < id

def get (id : BitVec 32) : Exec (Option V) := do
  if s.outOfRange id then return none
  match ← s.findLow id with
  | none => return none
  | some (_, low) => return low (PT_LOW id)

def update (id : BitVec 32) (data : Option V) : Exec (Bool × PageTable V) := do
  if s.outOfRange id then return (false, s)
  match ← s.findLow id with
  | none => return (false, s)
  | some (mid, low) =>
    if (low (PT_LOW id)).isNone then return (false, s)
    else return (true, s.storeLow id mid (Function.update low (PT_LOW id) data))

/-- `begin`.  Without other calls the loop ends in its first turn. -/
def begin : Exec (Option V) := s.get s.min

/-- `end`. -/
def end' : Exec (Option V) := s.get s.max

/-- The loops at the end of `set`. -/
def widen (id : BitVec 32) : PageTable V :=
  { s with
    min := if s.min ≤ id then s.min else id
    max := if s.max ≥ id then s.max else id }

/-- `set`.  The tables are made also if there is a value already, or a null is stored. -/
def set (id : BitVec 32) (data : Option V) : Exec (Option V × PageTable V) := do
  let mid := (← follow (s.root (PT_HIGH id))).getD fun _ => .null
  let low := (← follow (mid (PT_MID id))).getD fun _ => none
  match low (PT_LOW id) with
  | some tmpData => return (some tmpData, s.storeLow id mid low)
  | none => return (data, (s.storeLow id mid (Function.update low (PT_LOW id) data)).widen id)

/-- `erase`, with the values that are destroyed. -/
def erase (id : BitVec 32) : Exec (List V × PageTable V) := do
  if s.outOfRange id then return ([], s)
  match ← s.findLow id with
  | none => return ([], s)
  | some (mid, low) =>
    match low (PT_LOW id) with
    | none => return ([], s)
    | some data =>
      return ([data], s.storeLow id mid (Function.update low (PT_LOW id) none))

/-! ## Purge -/

/-- A turn of the loop over a low table that is deleted. -/
def visitSlot (slot : Option V) : Exec (Option V × List V) := .ok (slot, slot.toList)

/-- A turn of the loop over the low table that is kept. -/
def clearSlot (slot : Option V) : Exec (Option V × List V) := .ok (none, slot.toList)

/-- Visit the first slots of a table and delete it, if there is one.  `left` is what is then in the
    place of the pointer. -/
def deleteTable {w : Nat} {α : Type} (visit : α → Exec (α × List V)) (n : Nat)
    (left child : Child (BitVec w → α)) : Exec (Child (BitVec w → α) × List V) := do
  match ← follow child with
  | none => return (.null, [])
  | some table =>
    let (_, values) ← sweep visit n table
    return (left, values)

/-- A turn of a loop over a mid table: a low table is deleted.  The last value is not destroyed. -/
def deleteLow (left child : Child (LowNode V)) : Exec (Child (LowNode V) × List V) :=
  deleteTable visitSlot 4095 left child

/-- A turn of the loop over the root: a mid table is deleted, but not the pointer to it, and not the
    last of its low tables. -/
def deleteMid (child : Child (MidNode V)) : Exec (Child (MidNode V) × List V) :=
  deleteTable (deleteLow .freed) 4095 .freed child

/-- `purge`, with the values that are destroyed. -/
def purge (id : BitVec 32) : Exec (List V × PageTable V) := do
  if s.outOfRange id then return ([], s)
  let (root, values) ← sweep deleteMid (PT_HIGH id).toNat s.root
  let s := { s with min := if s.min ≤ id then s.min else id, root := root }
  match ← follow (s.root (PT_HIGH id)) with
  | none => return (values, s)
  | some mid =>
    let (mid, more) ← sweep (deleteLow .null) (PT_MID id).toNat mid
    let s := { s with root := Function.update s.root (PT_HIGH id) (.table mid) }
    match ← follow (mid (PT_MID id)) with
    | none => return (values ++ more, s)
    | some low =>
      let (low, rest) ← sweep clearSlot (PT_LOW id).toNat low
      return (values ++ more ++ rest, s.storeLow id mid low)

end PageTable

end DBStream.Native.Util
