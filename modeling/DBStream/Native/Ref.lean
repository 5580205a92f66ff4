import Mathlib.Data.List.Basic

/-!
# Reference counts

`util/ref.h`, and the two users of it: `block::use`, `block::unuse` of
`database/block.h` and `page::use`, `page::unuse`, `page::freeWhenNoUser` of
`database/page.h`.

Each function of `ref` is one atomic operation on the counter: `fetch_add`, or a loop
around `compare_exchange_weak` that takes effect once.  It answers a value and leaves a
counter.  The counter is an `int`; it stays near the number of uses outstanding, so it
is an `Int` here.
-/

namespace DBStream.Native

/-- `struct ref`. -/
structure Ref where
  m_ref : Int := 0
  deriving DecidableEq

namespace Ref

variable (r : Ref)

def reset : Ref := { m_ref := 0 }

/-- `use`: `fetch_add` answers the value before the addition. -/
def use : Int × Ref := (r.m_ref, { m_ref := r.m_ref + 1 })

def unuse : Int × Ref := (r.m_ref, { m_ref := r.m_ref - 1 })

def own : Bool × Ref :=
  if r.m_ref < 0 then (false, r) else (true, { m_ref := -r.m_ref })

/-- `unuseForLru`: the last user leaves `-1` behind, until it has put the page on the list. -/
def unuseForLru : Int × Ref :=
  if r.m_ref = 1 then (0, { m_ref := -1 }) else (r.m_ref - 1, { m_ref := r.m_ref - 1 })

def share : Bool × Ref :=
  if r.m_ref < 0 then (true, { m_ref := -r.m_ref }) else (false, r)

def tryUnuseIfZero : Bool × Ref :=
  if r.m_ref = 0 then (true, { m_ref := -1 }) else (false, r)

end Ref

/-! ## Blocks -/

/-- `block::use`: whether the block may be used, and the counter after it. -/
def blockUse (r : Ref) : Bool × Ref := (decide (0 ≤ r.use.1), r.use.2)

/-- `block::unuse`: whether the caller goes on to `delete this`, and the counter after it. -/
def blockUnuse (r : Ref) : Bool × Ref := (decide (r.unuse.1 < 0), r.unuse.2)

end DBStream.Native
