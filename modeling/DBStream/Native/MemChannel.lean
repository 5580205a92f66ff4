import DBStream.ForStd.Bytes

/-!
# The memory channel

`cluster/memChannel.h`, at the granularity of complete calls: while a call waits, nothing else
happens.  A node is found by its `id`, which counts the nodes from 1 on; 0 is `nullptr`.
-/

namespace DBStream.Native.CLUSTER

def memNodeSize : Nat := 1024 * 32

def maxNodeCountPerChannel : Nat := 8

inductive NodeStatus where
  | FREE
  | APPENDING
  | FULL
  deriving DecidableEq

structure MemNode where
  head : Nat
  tail : Nat
  status : NodeStatus
  next : Nat
  buf : List UInt8

structure MemChannel where
  nodes : Nat → MemNode
  m_head : Nat
  m_tail : Nat
  m_nodeCount : Nat

/-- A node as `allocNode` returns it.  What the memory holds is never read. -/
def allocNode : MemNode where
  head := 0
  tail := 0
  status := .APPENDING
  next := 0
  buf := List.replicate memNodeSize 0

/-- `memcpy` of `send` behind the head of a node. -/
def MemNode.copyIn (n : MemNode) (data : List UInt8) : MemNode :=
  { n with
    head := n.head + data.length
    buf := n.buf.take n.head ++ data ++ n.buf.drop (n.head + data.length) }

/-- The tail of a node moves over what `recv` has copied. -/
def MemNode.advance (n : MemNode) (nSize : Nat) : MemNode := { n with tail := n.tail + nSize }

namespace MemChannel

variable (c : MemChannel)

/-- The constructor. -/
def new : MemChannel where
  nodes := fun _ => { allocNode with next := 1 }
  m_head := 1
  m_tail := 1
  m_nodeCount := 1

/-- A store through a node pointer. -/
def modify (a : Nat) (f : MemNode → MemNode) : MemChannel :=
  { c with nodes := Function.update c.nodes a (f (c.nodes a)) }

/-- `*m_head`. -/
def headNode : MemNode := c.nodes c.m_head

/-- `*m_tail`. -/
def tailNode : MemNode := c.nodes c.m_tail

/-- `tryAddNode`: the new node and the channel with it. -/
def tryAddNode : Option (Nat × MemChannel) :=
  if c.m_nodeCount < maxNodeCountPerChannel then
    let node := c.m_nodeCount + 1
    some (node, { c with m_nodeCount := node }.modify node fun _ => allocNode)
  else none

/-- `updateHeadNode`: the channel and what is left of the time-out, if it returns true. -/
def updateHeadNode (outtimeMs : Int) : Option (MemChannel × Int) :=
  if (c.nodes c.headNode.next).status ≠ .FREE then
    match c.tryAddNode with
    | none =>
      if outtimeMs ≤ 0 then none
      else updateHeadNode (outtimeMs - 100)
    | some (next, c₁) =>
      let head := c₁.m_head
      let c₂ := c₁.modify next fun n => { n with next := c₁.headNode.next }
      let c₃ := { c₂.modify head fun n => { n with next := next } with m_head := next }
      some (c₃.modify head fun n => { n with status := .FULL }, outtimeMs)
  else
    let head := c.m_head
    let c₁ := { c with m_head := c.headNode.next }
    let c₂ := c₁.modify c₁.m_head fun n => { n with status := .APPENDING }
    some (c₂.modify head fun n => { n with status := .FULL }, outtimeMs)
termination_by outtimeMs.toNat

/-- The copy of `send` into the head node. -/
def copyIn (data : List UInt8) : MemChannel := c.modify c.m_head fun n => n.copyIn data

/-- The loop of `send` from `data + sendSize` on. -/
def sendLoop : Nat → MemChannel → List UInt8 → Int → Nat → Option (MemChannel × Nat)
  | 0, _, _, _, _ => none
  | fuel + 1, c, data, outtimeMs, sendSize =>
    let nSize := min (memNodeSize - c.headNode.head) data.length
    let c := c.copyIn (data.take nSize)
    if (data.drop nSize).length = 0 then some (c, sendSize + nSize)
    else
      match c.updateHeadNode outtimeMs with
      | none => some (c, sendSize + nSize)
      | some (c, outtimeMs) => sendLoop fuel c (data.drop nSize) outtimeMs (sendSize + nSize)

/-- `send`: the channel after a call that returns, and what it returns.  From `2 ^ 31` on
    `(int32_t)size` is negative, and `memcpy` is called with it. -/
def send (data : List UInt8) (outtimeMs : Int) (fuel : Nat) : Option (MemChannel × Nat) :=
  if data.length < 2 ^ 31 then sendLoop fuel c data outtimeMs 0 else none

/-- `tryAttachToNextNode`; no channel if the assertion fails. -/
def tryAttachToNextNode : Option MemChannel :=
  if c.tailNode.status = .FREE then none
  else if c.tailNode.tail = c.tailNode.head then
    let c₁ := c.modify c.m_tail fun n => { n with head := 0, tail := 0 }
    let c₂ := c₁.modify c₁.m_tail fun n => { n with status := .FREE }
    some { c₂ with m_tail := c₂.tailNode.next }
  else some c

/-- The copy of `recv` out of the tail node: what is copied is given back with the channel. -/
def copyOut (nSize : Nat) : List UInt8 × MemChannel :=
  (c.tailNode.buf.slice c.tailNode.tail nSize,
    c.modify c.m_tail fun n => n.advance nSize)

/-- `recv` leaves a tail node that is full and read to its end. -/
def leaveFull : Option MemChannel :=
  if c.tailNode.tail = c.tailNode.head ∧ c.tailNode.status = .FULL then c.tryAttachToNextNode
  else some c

/-- The loop of `recv`, with the bytes that are already copied. -/
def recvLoop : Nat → MemChannel → Nat → Int → List UInt8 → Option (MemChannel × List UInt8)
  | 0, _, _, _, _ => none
  | fuel + 1, c, size, outtimeMs, data => do
    let nSize := min (c.tailNode.head - c.tailNode.tail) size
    let (bytes, c) := c.copyOut nSize
    let c ← c.leaveFull
    if size - nSize = 0 then return (c, data ++ bytes)
    else if c.tailNode.head = c.tailNode.tail then
      if c.tailNode.status = .APPENDING then
        if outtimeMs > 0 then recvLoop fuel c (size - nSize) (outtimeMs - 100) (data ++ bytes)
        else return (c, data ++ bytes)
      else
        let c ← c.tryAttachToNextNode
        recvLoop fuel c (size - nSize) outtimeMs (data ++ bytes)
    else recvLoop fuel c (size - nSize) outtimeMs (data ++ bytes)

/-- `recv`: the channel after a call that returns, and the bytes that it has received. -/
def recv (size : Nat) (outtimeMs : Int) (fuel : Nat) : Option (MemChannel × List UInt8) :=
  if size < 2 ^ 31 then recvLoop fuel c size outtimeMs [] else none

end MemChannel

end DBStream.Native.CLUSTER
