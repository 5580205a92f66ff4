import DBStream.Native.Record

/-!
# Purging blocks

`database::purge` of `database/database.cpp`.  Ids are of 32 bits.  The block files are a map from
ids to what `getFileTime` gives for a file that exists.  The uses of a block and the numbers of the
statistic are left out; the statistic reads the block, so there has to be one.
-/

namespace DBStream.Native

/-- What `purge` sees of a database. -/
structure PurgeState (B : Type) where
  m_firstBlockId : UInt32
  m_lastBlockId : UInt32
  m_blocks : UInt32 → Option B
  files : UInt32 → Option Int
  failed : Bool := false

namespace PurgeState

variable {B : Type}

/-- The loop of `purge` from `blockId` on.  `removable` says for which ids `remove` succeeds, `now` is
    `time(nullptr)`. -/
def purgeLoop (removable : UInt32 → Bool) (now : Int) (m_outdated : UInt32) :
    Nat → UInt32 → PurgeState B → Exec (Int × PurgeState B)
  | 0, _, _ => .error .endless
  | fuel + 1, blockId, db =>
    if blockId < db.m_lastBlockId - 1 then
      match db.files blockId with
      | some fileTime =>
        if fileTime < now - m_outdated.toNat then .ok (0, db)
        else
          let b := db.m_blocks blockId
          let db := { db with
            m_blocks := Function.update db.m_blocks blockId none
            m_lastBlockId := db.m_lastBlockId + 1 }
          if removable blockId then do
            let _ ← deref b
            purgeLoop removable now m_outdated fuel (blockId + 1)
              { db with files := Function.update db.files blockId none }
          else .ok (-1, { db with m_lastBlockId := db.m_lastBlockId - 1, failed := true })
      | none =>
        purgeLoop removable now m_outdated fuel (blockId + 1)
          { db with m_lastBlockId := db.m_lastBlockId + 1 }
    else .ok (0, db)

def purge (removable : UInt32 → Bool) (now : Int) (m_outdated : UInt32) (db : PurgeState B) :
    Exec (Int × PurgeState B) :=
  purgeLoop removable now m_outdated (2 ^ 32) db.m_lastBlockId db

end PurgeState

end DBStream.Native
