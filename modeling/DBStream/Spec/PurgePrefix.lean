import DBStream.Native.DatabasePurge

/-!
# What `purge` takes away

The outdated blocks from the oldest on should go, up to the first one that is to be kept, and never
one of the two newest.  The loop begins at the newest block, where its condition fails at once, so
`purge` is right where there is nothing for it to do.
-/

namespace DBStream.Native

namespace PurgeState

variable {B : Type} {removable : UInt32 → Bool} {now : Int} {m_outdated : UInt32}
  {db : PurgeState B} {k : UInt32}

/-- The block file is older than `m_outdated`. -/
def Outdated (now : Int) (m_outdated : UInt32) (db : PurgeState B) (id : UInt32) : Prop :=
  ∃ fileTime, db.files id = some fileTime ∧ fileTime < now - m_outdated.toNat

/-- The block is none of the two newest, and has no file or one that is outdated and can be
    removed. -/
def Goes (removable : UInt32 → Bool) (now : Int) (m_outdated : UInt32) (db : PurgeState B)
    (id : UInt32) : Prop :=
  id.toNat + 1 < db.m_lastBlockId.toNat ∧
    (db.files id = none ∨ Outdated now m_outdated db id ∧ removable id)

/-- The purge has to stop at `k`: the blocks in front of it go, and it does not. -/
structure StopsAt (removable : UInt32 → Bool) (now : Int) (m_outdated : UInt32)
    (db : PurgeState B) (k : UInt32) : Prop where
  first_le : db.m_firstBlockId ≤ k
  goes : ∀ id, db.m_firstBlockId ≤ id → id < k → Goes removable now m_outdated db id
  stays : ¬ Goes removable now m_outdated db k

/-- From `k` on everything is as before, in front of it the files are gone, and `k` is the oldest
    block. -/
structure KeepsFrom (db : PurgeState B) (k : UInt32) (db' : PurgeState B) : Prop where
  first : db'.m_firstBlockId = k
  last : db'.m_lastBlockId = db.m_lastBlockId
  files : ∀ id, db'.files id = if db.m_firstBlockId ≤ id ∧ id < k then none else db.files id
  blocks : ∀ id, k ≤ id → db'.m_blocks id = db.m_blocks id

/-- `purge` takes away what has to go and nothing else. -/
def PurgesPrefix (removable : UInt32 → Bool) (now : Int) (m_outdated : UInt32)
    (db : PurgeState B) : Prop :=
  ∃ r db' k, db.purge removable now m_outdated = .ok (r, db') ∧
    StopsAt removable now m_outdated db k ∧ KeepsFrom db k db'

/-! ## What it does -/

theorem purge_succ (removable : UInt32 → Bool) (now : Int) (m_outdated : UInt32)
    (db : PurgeState B) : db.purge removable now m_outdated =
      purgeLoop removable now m_outdated (4294967294 + 1 + 1) db.m_lastBlockId db := rfl

theorem purgeLoop_done {fuel : Nat} {blockId : UInt32} (h : ¬ blockId < db.m_lastBlockId - 1) :
    purgeLoop removable now m_outdated (fuel + 1) blockId db = .ok (0, db) :=
  if_neg h

private theorem purge_of_ne_zero (hlast : db.m_lastBlockId ≠ 0) :
    db.purge removable now m_outdated = .ok (0, db) := by
  have hnot : ¬ db.m_lastBlockId < db.m_lastBlockId - 1 := by
    have hpos : db.m_lastBlockId.toNat ≠ 0 := fun hzero => hlast (UInt32.toNat_inj.mp hzero)
    rw [UInt32.lt_iff_toNat_lt, UInt32.toNat_sub]
    simp
    omega
  rw [purge_succ, purgeLoop_done hnot]

theorem purgeLoop_one {fuel : Nat} (hlast : db.m_lastBlockId = 0 + 1) :
    purgeLoop removable now m_outdated (fuel + 1) (0 + 1) db = .ok (0, db) := by
  exact purgeLoop_done (by rw [hlast]; decide)

theorem purge_of_zero (hlast : db.m_lastBlockId = 0) :
    db.purge removable now m_outdated =
      match db.files 0 with
      | none => .ok (0, { db with m_lastBlockId := 0 + 1 })
      | some fileTime =>
        if fileTime < now - m_outdated.toNat then .ok (0, db)
        else if removable 0 then do
          let _ ← deref (db.m_blocks 0)
          return (0, { db with
            m_blocks := Function.update db.m_blocks 0 none
            m_lastBlockId := 0 + 1
            files := Function.update db.files 0 none })
        else .ok (-1, { db with
          m_blocks := Function.update db.m_blocks 0 none
          m_lastBlockId := 0 + 1 - 1
          failed := true }) := by
  rw [purge_succ, hlast, purgeLoop, if_pos (by rw [hlast]; decide)]
  cases db.files 0 with
  | none =>
    rw [purgeLoop_one (by rw [hlast]), hlast]
  | some fileTime =>
    dsimp only
    rw [hlast]
    split
    · rfl
    · split
      · cases db.m_blocks 0 with
        | none => rfl
        | some b =>
          rw [deref_some, Exec.ok_bind, Exec.ok_bind, purgeLoop_one rfl]
          rfl
      · rfl

/-! ## Where it is right -/

theorem keepsFrom_first : KeepsFrom db db.m_firstBlockId db where
  first := rfl
  last := rfl
  files := by
    intro id
    rw [if_neg]
    intro ⟨hle, hlt⟩
    rw [UInt32.le_iff_toNat_le] at hle
    rw [UInt32.lt_iff_toNat_lt] at hlt
    omega
  blocks := fun _ _ => rfl

theorem stopsAt_first (h : ¬ Goes removable now m_outdated db db.m_firstBlockId) :
    StopsAt removable now m_outdated db db.m_firstBlockId where
  first_le := UInt32.le_refl _
  goes := by
    intro id hle hlt
    rw [UInt32.le_iff_toNat_le] at hle
    rw [UInt32.lt_iff_toNat_lt] at hlt
    omega
  stays := h

/-- Where there is no last block, the file of block 0 makes `purge` stop, or cannot be removed and
    the table does not have the block. -/
def ZeroStays (removable : UInt32 → Bool) (now : Int) (m_outdated : UInt32) (db : PurgeState B) :
    Prop :=
  db.m_lastBlockId = 0 → Outdated now m_outdated db 0 ∨
    db.files 0 ≠ none ∧ removable 0 = false ∧ db.m_blocks 0 = none

theorem purgeLoop_first {fuel : Nat} {blockId : UInt32} {r : Int} {db' : PurgeState B}
    (h : purgeLoop removable now m_outdated fuel blockId db = .ok (r, db')) :
    db'.m_firstBlockId = db.m_firstBlockId := by
  induction fuel generalizing blockId db with
  | zero => cases h
  | succ fuel ih =>
    rw [purgeLoop] at h
    split at h
    · split at h
      · split at h
        · cases h
          rfl
        · dsimp only at h
          split at h
          · obtain ⟨_, _, hrest⟩ := Exec.of_bind h
            have hfirst := ih hrest
            exact hfirst
          · cases h
            rfl
      · have hfirst := ih h
        exact hfirst
    · cases h
      rfl

theorem not_goes_of_purgesPrefix (h : PurgesPrefix removable now m_outdated db) :
    ¬ Goes removable now m_outdated db db.m_firstBlockId := by
  obtain ⟨r, db', k, hpurge, hstops, hkeeps⟩ := h
  rw [← purgeLoop_first hpurge, hkeeps.first]
  exact hstops.stays

theorem zeroStays_of_purgesPrefix (h : PurgesPrefix removable now m_outdated db)
    (hrange : db.m_firstBlockId ≤ db.m_lastBlockId) : ZeroStays removable now m_outdated db := by
  intro hlast
  obtain ⟨r, db', k, hpurge, hstops, hkeeps⟩ := h
  have hlast' := hkeeps.last
  rw [hlast] at hlast'
  have hone : (0 + 1 : UInt32) ≠ 0 := by decide
  rw [purge_of_zero hlast] at hpurge
  cases hfile : db.files 0 with
  | none =>
    rw [hfile] at hpurge
    cases hpurge
    exact absurd hlast' hone
  | some fileTime =>
    simp only [hfile] at hpurge
    split at hpurge
    · rename_i hold
      exact Or.inl ⟨fileTime, hfile, hold⟩
    · right
      split at hpurge
      · obtain ⟨_, _, hret⟩ := Exec.of_bind hpurge
        cases hret
        exact absurd hlast' hone
      · rename_i hremove
        cases hpurge
        refine ⟨by simp, by simpa using hremove, ?_⟩
        -- block 0 is the oldest one, so it has to be in the table as before
        have hzero : k ≤ 0 := by
          rw [← hkeeps.first, ← hlast]
          exact hrange
        have hblock := hkeeps.blocks 0 hzero
        rw [← hblock]
        exact Function.update_self (0 : UInt32) (none : Option B) db.m_blocks

/-- `purge` is right exactly where the oldest block is to stay and, without a last block, block 0
    stays. -/
theorem purgesPrefix_iff (hrange : db.m_firstBlockId ≤ db.m_lastBlockId) :
    PurgesPrefix removable now m_outdated db ↔
      ¬ Goes removable now m_outdated db db.m_firstBlockId ∧
        ZeroStays removable now m_outdated db := by
  constructor
  · intro h
    exact ⟨not_goes_of_purgesPrefix h, zeroStays_of_purgesPrefix h hrange⟩
  · intro ⟨hstays, hzero⟩
    by_cases hlast : db.m_lastBlockId = 0
    swap
    · exact ⟨0, db, _, purge_of_ne_zero hlast, stopsAt_first hstays, keepsFrom_first⟩
    cases hzero hlast with
    | inl hold =>
      obtain ⟨fileTime, hfile, hold⟩ := hold
      refine ⟨0, db, _, ?_, stopsAt_first hstays, keepsFrom_first⟩
      rw [purge_of_zero hlast, hfile]
      exact if_pos hold
    | inr hfails =>
      obtain ⟨hfile, hremove, hblock⟩ := hfails
      obtain ⟨fileTime, hfile⟩ := Option.ne_none_iff_exists'.mp hfile
      by_cases hold : fileTime < now - m_outdated.toNat
      · refine ⟨0, db, _, ?_, stopsAt_first hstays, keepsFrom_first⟩
        rw [purge_of_zero hlast, hfile]
        exact if_pos hold
      · have hpurge : db.purge removable now m_outdated = .ok (-1, { db with
            m_blocks := Function.update db.m_blocks 0 none
            m_lastBlockId := 0 + 1 - 1
            failed := true }) := by
          rw [purge_of_zero hlast, hfile]
          dsimp only
          rw [if_neg hold, if_neg (by simp [hremove])]
        refine ⟨-1, _, _, hpurge, stopsAt_first hstays, rfl, hlast.symm, keepsFrom_first.files, ?_⟩
        intro id _
        -- the block that was erased was not in the table
        by_cases hid : id = 0
        · rw [hid, hblock]
          exact Function.update_self (0 : UInt32) (none : Option B) db.m_blocks
        · exact Function.update_of_ne hid (none : Option B) db.m_blocks

/-- Five files, the oldest of them newer than a day. -/
theorem purgesPrefix_iff_new :
    PurgesPrefix (fun _ => true) 1000000 86400
      ({ m_firstBlockId := 1, m_lastBlockId := 5, m_blocks := fun _ => some ()
         files := fun id => if id = 0 then none else some 950000 } : PurgeState Unit) := by
  refine (purgesPrefix_iff (by decide)).mpr ⟨?_, fun hlast => absurd hlast (by decide)⟩
  intro ⟨_, hgoes⟩
  rcases hgoes with hnone | ⟨⟨fileTime, hfile, hold⟩, _⟩
  · exact absurd hnone (by decide)
  · obtain rfl : 950000 = fileTime := Option.some.inj hfile
    exact absurd hold (by decide)

/-- Of five files that are all outdated none is removed. -/
theorem outdated_kept :
    ¬ PurgesPrefix (fun _ => true) 1000000 86400
      ({ m_firstBlockId := 1, m_lastBlockId := 5, m_blocks := fun _ => some ()
         files := fun id => if id = 0 then none else some 0 } : PurgeState Unit) := by
  intro h
  exact not_goes_of_purgesPrefix h ⟨by decide, Or.inr ⟨⟨0, rfl, by decide⟩, rfl⟩⟩

end PurgeState

end DBStream.Native
