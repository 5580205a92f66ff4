import DBStream.Native.Record
import Mathlib.Data.Multiset.ZeroCons

/-!
# References to a log file or block

`ref` of `cluster/clusterLogFile.h`, one atomic operation at a time.  A call is a `RefPc`: the
operation it is in front of, with the value of `m_ref` it has read.  The calls in progress are a
multiset; a step takes one of them on by one operation.  `m_data` is whether it is loaded and
whether it was deleted.
-/

namespace DBStream.Native.CLUSTER

def IN_CLEAR : Nat := 0x80000000

def IN_LOAD : Nat := 0xc0000000

def NEED_FREE : Nat := 0x20000000

/-- `r & ~NEED_FREE`. -/
def withoutNeedFree (r : Nat) : Nat := r &&& 0xdfffffff

/-- `std::memory_order_relaxed`, as the number that `fetch_sub` is given. -/
def memory_order_relaxed : Nat := 0

/-- A call in progress: what it does next. -/
inductive RefPc where
  /-- `use` reads `m_ref`. -/
  | useLoad
  /-- `use` has read `r` and tries to replace it. -/
  | useCas (r : Nat)
  /-- `use` calls `loadFunc`. -/
  | load
  /-- `use` takes back what it has entered, since `loadFunc` failed. -/
  | loadFailed
  /-- `use` stores 1. -/
  | loadDone
  /-- `unuse` reads `m_ref`. -/
  | unuseLoad
  /-- `unuse` has read `r` and tries to replace it. -/
  | unuseCas (r : Nat)
  /-- `unuse` closes `m_data`; it had read `r`. -/
  | close (r : Nat)
  /-- `unuse` stores 0. -/
  | clearDone
  /-- `unuse` or `needFree` deletes `m_data`. -/
  | delete
  /-- `needFree` sets the bit. -/
  | needFree
  deriving DecidableEq

/-- A `ref`.  `uses` counts the successful calls of `use` whose users have not called `unuse`, and
    `freeAsked` is whether `needFree` was called, other than during a load. -/
structure RefState where
  m_ref : Nat := 0
  loaded : Bool := false
  deleted : Bool := false
  calls : Multiset RefPc := 0
  uses : Nat := 0
  freeAsked : Bool := false

namespace RefState

variable (s : RefState)

/-- The next operation of a call: the state after it and what the call does then, if it has not
    returned.  `ok` is what may fail whatever the state: `compare_exchange_weak` and `loadFunc`.
    There is no step behind an assertion that fails. -/
def operate (ok : Bool) : RefPc → Option (RefState × Option RefPc)
  | .useLoad =>
    if s.m_ref &&& NEED_FREE ≠ 0 then none
    else if s.m_ref = IN_CLEAR ∨ s.m_ref = IN_LOAD then some (s, some .useLoad)
    else some (s, some (.useCas s.m_ref))
  | .useCas r =>
    if ok ∧ s.m_ref = r then
      if r = 0 then some ({ s with m_ref := IN_LOAD }, some .load)
      else some ({ s with m_ref := (r + 1) % 2 ^ 32, uses := s.uses + 1 }, none)
    else some (s, some .useLoad)
  | .load =>
    if ok then some ({ s with loaded := true }, some .loadDone) else some (s, some .loadFailed)
  | .loadFailed =>
    -- the memory order is the operand
    some ({ s with m_ref := (s.m_ref + 2 ^ 32 - memory_order_relaxed) % 2 ^ 32 }, none)
  | .loadDone => some ({ s with m_ref := 1, uses := s.uses + 1 }, none)
  | .unuseLoad => some (s, some (.unuseCas s.m_ref))
  | .unuseCas r =>
    if ok ∧ s.m_ref = r then
      if withoutNeedFree r = 1 then some ({ s with m_ref := IN_CLEAR }, some (.close r))
      else some ({ s with m_ref := (r + (2 ^ 32 - 1)) % 2 ^ 32 }, none)
    else some (s, some .unuseLoad)
  | .close r =>
    some ({ s with loaded := false },
      if r &&& NEED_FREE ≠ 0 then some .delete else some .clearDone)
  | .clearDone => some ({ s with m_ref := 0 }, none)
  | .delete => some ({ s with deleted := true }, none)
  | .needFree =>
    some ({ s with
        m_ref := s.m_ref ||| NEED_FREE
        freeAsked := s.freeAsked || decide (withoutNeedFree s.m_ref ≠ IN_LOAD) },
      if s.m_ref = 0 then some .delete else none)

/-- The calls with what a call does next, unless it has returned. -/
def proceed (rest : Multiset RefPc) (next : Option RefPc) : RefState :=
  { s with calls := next.elim rest fun pc => pc ::ₘ rest }

end RefState

/-- The references that runs lead to: a call begins, or one of those in progress does its next
    operation, which satisfies `P`.  Only a user calls `unuse`. -/
inductive RefRun (P : RefState → RefPc → Bool → Prop) : RefState → Prop where
  | start : RefRun P {}
  | use {s : RefState} (run : RefRun P s) : RefRun P { s with calls := .useLoad ::ₘ s.calls }
  | unuse {s : RefState} {uses : Nat} (run : RefRun P s) (user : s.uses = uses + 1) :
      RefRun P { s with uses := uses, calls := .unuseLoad ::ₘ s.calls }
  | needFree {s : RefState} (run : RefRun P s) :
      RefRun P { s with calls := .needFree ::ₘ s.calls }
  | operate {s s' : RefState} {pc : RefPc} {rest : Multiset RefPc} {ok : Bool}
      {next : Option RefPc} (run : RefRun P s) (inProgress : s.calls = pc ::ₘ rest)
      (cond : P s pc ok) (op : s.operate ok pc = some (s', next)) :
      RefRun P (s'.proceed rest next)

end DBStream.Native.CLUSTER
