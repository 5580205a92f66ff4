import DBStream.ForStd.BinaryHeap
import DBStream.Native.SolidIterator

/-!
# The merge of index iterators

`kWaySortIterator` of `database/kWaySortIterator.h` with `increaseCompare`, over iterators that
do what `blockIndexIterator` promises: `seek` goes to the first key that is not less, `next` to
the key after it, and an iterator that cannot go on stays where it is.

The heap holds pointers to the iterators, which are their numbers in `m_iters`: an iterator that
moves is the same iterator in the heap.
-/

/-!
## The heap

`heap<T, Compare>` of `util/heap.h`, without `sort` and `set`.  The array is a function on
places, of which `1..currentSize` are in use; places behind it keep what they had.
-/

namespace DBStream.Native

open BinaryHeap

structure Heap (T : Type) where
  h : Nat → T
  currentSize : Nat

namespace Heap

variable {T : Type} (compare : T → T → Bool)

/-- The loop of `adjust` from place `p` on, which is at least doubled in each turn.  The right child
    is looked at only before the place `end`. -/
def adjustLoop (endd : Nat) : Nat → (Nat → T) → Nat → Nat → T
  | 0, h, _ => h
  | fuel + 1, h, p =>
    if 2 * p ≤ endd then
      let c := if 2 * p + 1 < endd ∧ compare (h (2 * p + 1)) (h (2 * p)) then 2 * p + 1 else 2 * p
      if compare (h p) (h c) then h
      else adjustLoop endd fuel (swapAt h p c) c
    else h

def adjust (h : Nat → T) (start endd : Nat) : Nat → T := adjustLoop compare endd endd h start

def clear (q : Heap T) : Heap T := { q with currentSize := 0 }

def size (q : Heap T) : Nat := q.currentSize

def get (q : Heap T) : T := q.h 1

/-- `getSecond`: the second element and its position from 0, or nothing for `-1`. -/
def getSecond (q : Heap T) : Option (T × Nat) :=
  if q.currentSize ≤ 1 then none
  else if q.currentSize = 2 ∨ compare (q.h 2) (q.h 3) then some (q.h 2, 1)
  else some (q.h 3, 2)

/-- An assignment to a place. -/
def put (h : Nat → T) (i : Nat) (x : T) : Nat → T := fun k => if k = i then x else h k

def replaceAt (q : Heap T) (data : T) (pos : Nat) : Heap T where
  h := adjust compare (put q.h (pos + 1) data) (pos + 1) q.currentSize
  currentSize := if q.currentSize = 0 then 1 else q.currentSize

def popAt (q : Heap T) (pos : Nat) : Heap T :=
  if q.currentSize ≤ 1 then { q with currentSize := 0 }
  else {
    h := adjust compare (put q.h (pos + 1) (q.h q.currentSize)) (pos + 1) q.currentSize
    currentSize := q.currentSize - 1 }

/-- The loop of `insert`. -/
def riseLoop : Nat → (Nat → T) → Nat → Nat → T
  | 0, h, _ => h
  | fuel + 1, h, i =>
    if 1 < i then
      if compare (h i) (h (i / 2)) then riseLoop fuel (swapAt h i (i / 2)) (i / 2) else h
    else h

def insert (q : Heap T) (data : T) : Heap T where
  h := riseLoop compare (q.currentSize + 1) (put q.h (q.currentSize + 1) data) (q.currentSize + 1)
  currentSize := q.currentSize + 1

def pop (q : Heap T) : Heap T := q.popAt compare 0

def popAndInsert (q : Heap T) (data : T) : Heap T := q.replaceAt compare data 0

end Heap

end DBStream.Native

namespace DBStream.Native

/-- A `blockIndexIterator`: the keys of its index, and those from its position on. -/
structure BlockIndexIterator (K : Type) where
  blockId : Nat
  keys : List K
  rest : List K := []

namespace BlockIndexIterator

variable {K : Type} [LinearOrder K] [Inhabited K]

def key (it : BlockIndexIterator K) : K := it.rest.headD default

def seek (k : K) (it : BlockIndexIterator K) : Bool × BlockIndexIterator K :=
  let rest := it.keys.dropWhile (· < k)
  (!rest.isEmpty, { it with rest := rest })

def next (it : BlockIndexIterator K) : Bool × BlockIndexIterator K :=
  match it.rest with
  | _ :: k :: rest => (true, { it with rest := k :: rest })
  | _ => (false, it)

end BlockIndexIterator

structure KWaySortIterator (K : Type) where
  m_iters : Nat → BlockIndexIterator K
  m_iterCount : Nat
  m_heap : Heap Nat
  m_current : Nat

namespace KWaySortIterator

variable {K : Type} [LinearOrder K] [Inhabited K] (s : KWaySortIterator K)

/-- The key an iterator is at. -/
def keyOf (i : Nat) : K := (s.m_iters i).key

/-- `increaseCompare`. -/
def compare (i j : Nat) : Bool := s.keyOf i < s.keyOf j

/-- The iterator `i` is replaced. -/
def setIter (i : Nat) (it : BlockIndexIterator K) : KWaySortIterator K :=
  { s with m_iters := fun j => if j = i then it else s.m_iters j }

/-- One turn of the loop of `seek`. -/
def seekOne (k : K) (i : Nat) : KWaySortIterator K :=
  let (found, it) := (s.m_iters i).seek k
  let s := s.setIter i it
  if found then { s with m_heap := s.m_heap.insert s.compare i } else s

def seek (k : K) : KWaySortIterator K :=
  let s := (List.range s.m_iterCount).foldl (fun s i => s.seekOne k i)
    { s with m_heap := s.m_heap.clear }
  if 0 < s.m_heap.size then { s with m_current := s.m_heap.get } else s

/-- The call of `next` of iterator `i`, which is at `pos` in the heap: it is sorted in again, or
    taken out. -/
def advanceAt (i pos : Nat) : KWaySortIterator K :=
  let (ok, it) := (s.m_iters i).next
  let s := s.setIter i it
  if ok then { s with m_heap := s.m_heap.replaceAt s.compare i pos }
  else { s with m_heap := s.m_heap.popAt s.compare pos }

/-- One turn of the loop of `next`, or nothing where it breaks off. -/
def dropDuplicate : Option (KWaySortIterator K) :=
  match s.m_heap.getSecond s.compare with
  | none => none
  | some (second, sid) =>
    if s.keyOf s.m_current = s.keyOf second then
      if (s.m_iters s.m_current).blockId < (s.m_iters second).blockId then
        some { s.advanceAt s.m_current 0 with m_current := second }
      else some (s.advanceAt second sid)
    else none

/-- The loop of `next`. -/
def dropDuplicates : Nat → KWaySortIterator K → Exec (KWaySortIterator K)
  | 0, _ => .error .endless
  | fuel + 1, s =>
    match s.dropDuplicate with
    | none => .ok s
    | some s => dropDuplicates fuel s

/-- `next`.  Each turn of its loop moves an iterator on or takes it out. -/
def next : Exec (IterStatus × KWaySortIterator K) :=
  if s.m_heap.size = 0 then .ok (.ENDED, s)
  else
    let s := s.advanceAt s.m_current 0
    if s.m_heap.size = 0 then .ok (.ENDED, s)
    else do
      let turns := ((List.range s.m_iterCount).map fun i => (s.m_iters i).rest.length).sum
      let s ← dropDuplicates (turns + 1) { s with m_current := s.m_heap.get }
      return (.OK, s)

end KWaySortIterator

end DBStream.Native
