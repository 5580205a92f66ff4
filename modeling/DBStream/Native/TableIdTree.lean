import DBStream.Native.IndexKey
import DBStream.Native.MetaTimeline

/-!
# The tree of the table ids

`tableIdTree` of `meta/tableIdTree.h`.

The level of a node is part of its type.  A `tableMetaWrap` with those behind it is the list of
their metas, newest first, and the empty list is `nullptr`.  `endId` and `parent`, which only the
loop that keeps `endId` reads, are left out, and so is `serial`, which is always set.
-/

namespace DBStream.Native.Meta

/-- `tableIdTree::node`, with children of a type.  The children are those below 512. -/
structure Node (C : Type) where
  startId : Nat
  child : Nat → C

/-- A node of a level: the children are wraps, or nodes of the level below. -/
def IdNode (T : Type) : Nat → Type
  | 0 => Node (List T)
  | level + 1 => Node (Option (IdNode T level))

/-- The child number of a table id in a node, a `uint16_t`. -/
def slotOf (startId level tableId : Nat) : Nat :=
  (((tableId + 2 ^ 64 - startId) % 2 ^ 64) >>> (level * 9)) % 2 ^ 16

/-- `n->startId + cid * (1 << (n->level * 9))`.  The product is one of `int`s; a shift by more than
    31 bits shifts by the remainder, as the processor does it. -/
def childStartId (startId level cid : Nat) : Nat :=
  ((startId + toInt32 (cid * toInt32 (1 <<< (level * 9 % 32) : Nat))) % 2 ^ 64).toNat

/-- Store a child. -/
def Node.setChild {C : Type} (n : Node C) (cid : Nat) (c : C) : Node C :=
  { n with child := Function.update n.child cid c }

namespace IdNode

variable {T : Type} [HasMetaId T]

def startId : (level : Nat) → IdNode T level → Nat
  | 0, n => Node.startId n
  | _ + 1, n => Node.startId n

/-- A new node without children. -/
def empty : (level startId : Nat) → IdNode T level
  | 0, startId => ({ startId := startId, child := fun _ => [] } : Node (List T))
  | level + 1, startId =>
    ({ startId := startId, child := fun _ => none } : Node (Option (IdNode T level)))

/-- A new version of a table in front of the wrap `w`. -/
def pushVersion (tableId : Nat) (meta' : T) (w : List T) : Exec (List T) :=
  match w with
  | [] => .ok [meta']
  | m :: rest =>
    if tableID (m_id m) ≠ tableId then .error .assertFailed
    else if ¬tableVersion (m_id m) < tableVersion (m_id meta') then .error .assertFailed
    else .ok (meta' :: m :: rest)

/-- The loop of `put` from a node on that should have a child for the id. -/
def put (tableId : Nat) (meta' : T) : (level : Nat) → IdNode T level → Exec (IdNode T level)
  | 0, (n : Node (List T)) =>
    let cid := slotOf n.startId 0 tableId
    if 512 ≤ cid then .error .assertFailed
    else do
      let w ← pushVersion tableId meta' (n.child cid)
      return n.setChild cid w
  | level + 1, (n : Node (Option (IdNode T level))) =>
    let cid := slotOf n.startId (level + 1) tableId
    if 512 ≤ cid then .error .assertFailed
    else do
      let c := (n.child cid).getD (empty level (childStartId n.startId (level + 1) cid))
      let c ← put tableId meta' level c
      return n.setChild cid (some c)

/-- The loop of `get` and `getPrevVersion` down to the wraps of a table. -/
def find (id : Nat) : (level : Nat) → IdNode T level → Exec (List T)
  | 0, (n : Node (List T)) =>
    let cid := slotOf n.startId 0 id
    if 512 ≤ cid then .ok []
    else
      match n.child cid with
      | [] => .ok []
      | m :: rest => if tableID (m_id m) = id then .ok (m :: rest) else .error .assertFailed
  | level + 1, (n : Node (Option (IdNode T level))) =>
    let cid := slotOf n.startId (level + 1) id
    if 512 ≤ cid then .ok []
    else
      match n.child cid with
      | none => .ok []
      | some c => find id level c

end IdNode

structure TableIdTree (T : Type) where
  level : Nat
  m_root : IdNode T level

namespace TableIdTree

variable {T : Type} [HasMetaId T]

/-- The constructor. -/
def create : TableIdTree T := ⟨0, IdNode.empty 0 0⟩

/-- The turns of `put` that put a new root on top, until the root is high enough.  A root of level 8
    is, for every id of 64 bits. -/
def grow (tableId : Nat) : Nat → TableIdTree T → Exec (TableIdTree T)
  | 0, _ => .error .endless
  | fuel + 1, t =>
    let startId := IdNode.startId t.level t.m_root
    if 512 ≤ slotOf startId t.level tableId then
      let n : Node (Option (IdNode T t.level)) := IdNode.empty (t.level + 1) startId
      grow tableId fuel ⟨t.level + 1, n.setChild 0 (some t.m_root)⟩
    else .ok t

def put (t : TableIdTree T) (meta' : T) : Exec (TableIdTree T) := do
  let tableId := tableID (m_id meta')
  let t ← grow tableId 9 t
  let root ← IdNode.put tableId meta' t.level t.m_root
  return ⟨t.level, root⟩

def get (t : TableIdTree T) (tableId : Nat) : Exec (Option T) := do
  match ← IdNode.find (tableID tableId) t.level t.m_root with
  | [] => return none
  | m :: rest =>
    if m_id m < tableId then return none
    else return (m :: rest).find? fun m => m_id m = tableId

/-- The version behind the one with an id. -/
def behind (tableId : Nat) : List T → Option T
  | [] => none
  | m :: rest => if m_id m = tableId then rest.head? else behind tableId rest

def getPrevVersion (t : TableIdTree T) (tableId : Nat) : Exec (Option T) := do
  match ← IdNode.find (tableID tableId) t.level t.m_root with
  | [] => return none
  | m :: rest =>
    if m_id m < tableId then return none
    else return behind tableId (m :: rest)

end TableIdTree

end DBStream.Native.Meta
