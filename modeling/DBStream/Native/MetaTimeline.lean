import DBStream.Native.Record

/-!
# Versions of metadata

`MetaTimeline` of `meta/metaTimeline.h` and the ids of its versions, `tableMeta::genTableId` with
`tableID` and `tableVersion` of `meta/metaData.h`.

A `MetaInfo *` is what lies behind it, so a pointer that `purge` leaves to a version it has freed
is `MetaInfo.freed`.  The name of a timeline, which nothing here reads, is left out.
-/

namespace DBStream.Native.Meta

/-! ## Ids -/

def tableVersion (tableIDInfo : Nat) : Nat := tableIDInfo &&& 0xffff

def tableID (tableIDInfo : Nat) : Nat := (tableIDInfo &&& 0xffffffffffff0000) >>> 16

def genTableId (tableid version : Nat) : Nat := (tableid <<< 16) % 2 ^ 64 ||| version

/-- The metas a timeline can be made of: they have a field `m_id`. -/
class HasMetaId (T : Type) where
  m_id : T → Nat
  setId : T → Nat → T
  m_id_setId : ∀ m i, m_id (setId m i) = i

export HasMetaId (m_id setId)

/-! ## Timelines -/

/-- A `MetaInfo *`: null, a version that has been freed, or a version.  The meta of a version is a
    pointer that may be null. -/
inductive MetaInfo (T : Type) where
  | null
  | freed
  | version (meta' : Option T) (startPos : Nat) (prev : MetaInfo T)
  deriving DecidableEq

structure MetaTimeline (T : Type) where
  m_current : MetaInfo T
  m_id : Nat
  m_version : Nat
  deriving DecidableEq

namespace MetaInfo

variable {T : Type}

/-- The loop of `get` over the versions behind the newest. -/
def findBefore (originCheckPoint : Nat) : MetaInfo T → Exec (Option T)
  | null => .ok none
  | freed => .error .dangling
  | version meta' startPos prev =>
    -- the newest version is compared with `<=`, those behind it with `<`
    if startPos < originCheckPoint then .ok meta' else findBefore originCheckPoint prev

/-- The second loop of `purge`: a version is freed with all before it. -/
def free : MetaInfo T → Exec (MetaInfo T)
  | null => .ok null
  | freed => .error .dangling
  | version _ _ prev => do
    let _ ← free prev
    return freed

/-- Both loops of `purge`.  Neither `m_current` nor the `prev` of a version that stays is
    written. -/
def purge (originCheckPoint : Nat) : MetaInfo T → Exec (MetaInfo T)
  | null => .ok null
  | freed => .error .dangling
  | version meta' startPos prev =>
    if originCheckPoint < startPos then do
      let prev ← purge originCheckPoint prev
      return version meta' startPos prev
    else free (version meta' startPos prev)

end MetaInfo

namespace MetaTimeline

variable {T : Type} [HasMetaId T] (t : MetaTimeline T)

/-- The constructor. -/
def create (id : Nat) : MetaTimeline T where
  m_current := .null
  m_id := id
  m_version := 0

/-- `get`.  No version is put while it runs, so where it reads `m_current` again it finds the same
    version and the loop over newer ones is not entered. -/
def get (originCheckPoint : Nat) : Exec (Option T) :=
  match t.m_current with
  | .null => .error .nullDeref
  | .freed => .error .dangling
  | .version meta' startPos prev =>
    if startPos ≤ originCheckPoint then .ok meta' else prev.findBefore originCheckPoint

/-- The id `put` writes into a meta, and the next version. -/
def assignId : Option T → Option T × MetaTimeline T
  | none => (none, t)
  | some m =>
    (some (setId m (genTableId t.m_id t.m_version)),
      { t with m_version := (t.m_version + 1) % 2 ^ 16 })

/-- What `put` does with a version that has its id: its answer, the meta and the timeline. -/
def link (m : Option T) (originCheckPoint : Nat) : Exec (Int × Option T × MetaTimeline T) :=
  match t.m_current with
  | .null => .ok (0, m, { t with m_current := .version m originCheckPoint .null })
  | .freed => .error .dangling
  | .version _ startPos _ =>
    if originCheckPoint ≤ startPos then .ok (-1, m, t)
    else .ok (0, m, { t with m_current := .version m originCheckPoint t.m_current })

/-- `put`.  The version is counted before it is known whether it can be linked. -/
def put (meta' : Option T) (originCheckPoint : Nat) : Exec (Int × Option T × MetaTimeline T) :=
  let (m, t) := t.assignId meta'
  t.link m originCheckPoint

def disableCurrent (originCheckPoint : Nat) : Exec (Int × MetaTimeline T) := do
  let (r, _, t) ← t.put none originCheckPoint
  return (r, t)

def purge (originCheckPoint : Nat) : Exec (MetaTimeline T) := do
  let current ← t.m_current.purge originCheckPoint
  return { t with m_current := current }

end MetaTimeline

end DBStream.Native.Meta
