import DBStream.Spec.MetaTimelineCorrect

/-!
# What `purge` leaves to the readers

`purge` should only take away what no reader from its checkpoint on can ask for.  It frees the
version in force at the checkpoint with the older ones, and writes none of the pointers to what it
has freed.  So it is right only where there is nothing for it to do.
-/

namespace DBStream.Native.Meta

namespace MetaInfo

variable {T : Type} {p : Nat}

def Linked : MetaInfo T → Prop
  | null => True
  | freed => False
  | version _ _ prev => prev.Linked

/-- Every version starts behind the checkpoint, and none has been freed. -/
def StartsAfter (p : Nat) : MetaInfo T → Prop
  | null => True
  | freed => False
  | version _ startPos prev => p < startPos ∧ prev.StartsAfter p

instance decidableStartsAfter (p : Nat) : (m : MetaInfo T) → Decidable (m.StartsAfter p)
  | null => .isTrue trivial
  | freed => .isFalse id
  | version _ startPos prev =>
    have := decidableStartsAfter p prev
    inferInstanceAs (Decidable (p < startPos ∧ prev.StartsAfter p))

theorem StartsAfter.linked {m : MetaInfo T} (h : m.StartsAfter p) : m.Linked := by
  induction m with
  | null => trivial
  | freed => exact h
  | version m startPos prev ih => exact ih h.2

theorem StartsAfter.purge {m : MetaInfo T} (h : m.StartsAfter p) : m.purge p = .ok m := by
  induction m with
  | null => rfl
  | freed => exact h.elim
  | version m startPos prev ih => simp [MetaInfo.purge, h.1, ih h.2]

theorem startsAfter_of_purge {m m' : MetaInfo T} (h : m.purge p = .ok m') (hlinked : m'.Linked) :
    m.StartsAfter p := by
  induction m generalizing m' with
  | null => trivial
  | freed => cases h
  | version m startPos prev ih =>
    simp only [MetaInfo.purge] at h
    split at h
    · rename_i hlt
      obtain ⟨prev', hprev, hret⟩ := Exec.of_bind h
      cases hret
      exact ⟨hlt, ih hprev hlinked⟩
    · -- `free` leaves nothing that may be read
      obtain ⟨_, _, hret⟩ := Exec.of_bind h
      cases hret
      exact hlinked.elim

end MetaInfo

/-! ## One timeline -/

namespace MetaTimeline

variable {T : Type} {t t' : MetaTimeline T} {p : Nat}

/-- A purge that no reader from the checkpoint on can see, and that leaves no pointer to a version
    it has freed. -/
structure PurgedTo (p : Nat) (t t' : MetaTimeline T) : Prop where
  purge : t.purge p = .ok t'
  get : ∀ x, p ≤ x → t'.get x = t.get x
  linked : t'.m_current.Linked

theorem purgedTo_self (h : t.m_current.StartsAfter p) : PurgedTo p t t where
  purge := by simp [MetaTimeline.purge, h.purge]
  get _ _ := rfl
  linked := h.linked

theorem startsAfter_of_purge (h : t.purge p = .ok t') (hlinked : t'.m_current.Linked) :
    t.m_current.StartsAfter p := by
  obtain ⟨m, hm, hret⟩ := Exec.of_bind h
  cases hret
  exact MetaInfo.startsAfter_of_purge hm hlinked

theorem purge_of_startsAfter (h : t.m_current.StartsAfter p) : t.purge p = .ok t :=
  (purgedTo_self h).purge

theorem get_ok (hlinked : t.m_current.Linked) (hne : t.m_current ≠ .null) (x : Nat) :
    ∃ m, t.get x = .ok m := by
  have hbefore : ∀ m : MetaInfo T, m.Linked → ∃ v, m.findBefore x = .ok v := by
    intro m hm
    induction m with
    | null => exact ⟨none, rfl⟩
    | freed => exact hm.elim
    | version m startPos prev ih =>
      simp only [MetaInfo.findBefore]
      split
      · exact ⟨m, rfl⟩
      · exact ih hm
  unfold MetaTimeline.get
  cases hcur : t.m_current with
  | null => exact absurd hcur hne
  | freed =>
    rw [hcur] at hlinked
    exact hlinked.elim
  | version m startPos prev =>
    rw [hcur] at hlinked
    dsimp only
    split
    · exact ⟨m, rfl⟩
    · exact hbefore prev hlinked

end MetaTimeline

/-! ## The collection -/

/-- A purge of a table under its name. -/
def TablePurged (p : Nat) (e e' : String × MetaTimeline TableMeta) : Prop :=
  e'.1 = e.1 ∧ MetaTimeline.PurgedTo p e.2 e'.2

/-- A database without its tables, which are purged on their own. -/
def DbInfo.withoutTables (db : DbInfo) : DbInfo := { db with tables := [] }

/-- A purge of a database under its name, with every table of the version in force if there is
    one. -/
structure DatabasePurged (p : Nat) (e e' : String × MetaTimeline DbInfo) : Prop where
  name : e'.1 = e.1
  get : ∀ x, p ≤ x →
    (e'.2.get x).map (Option.map DbInfo.withoutTables) =
      (e.2.get x).map (Option.map DbInfo.withoutTables)
  linked : e'.2.m_current.Linked
  tables : ∀ info, e.2.get (2 ^ 64 - 1) = .ok (some info) →
    ∃ info', e'.2.get (2 ^ 64 - 1) = .ok (some info') ∧
      List.Forall₂ (TablePurged p) info.tables info'.tables

/-- There is nothing to purge in a database, nor in a table of its version in force. -/
structure NothingBefore (p : Nat) (db : MetaTimeline DbInfo) : Prop where
  ne_null : db.m_current ≠ .null
  startsAfter : db.m_current.StartsAfter p
  tables : ∀ info, db.get (2 ^ 64 - 1) = .ok (some info) →
    ∀ e ∈ info.tables, e.2.m_current.StartsAfter p

namespace MetaDataCollection

variable {p : Nat}

/-- What `purge` does with a database. -/
def purgeDatabase (p : Nat) (e : String × MetaTimeline DbInfo) :
    Exec (String × MetaTimeline DbInfo) := do
  let db ← e.2.purge p
  let _ ← db.get (2 ^ 64 - 1)
  return (e.1, db)

theorem purge_eq (c : MetaDataCollection) (p : Nat) :
    c.purge p = do
      let dbs ← c.m_dbs.mapM (purgeDatabase p)
      return { c with m_dbs := dbs } := rfl

private theorem purgeDatabase_self {e : String × MetaTimeline DbInfo} (h : NothingBefore p e.2) :
    purgeDatabase p e = .ok e := by
  obtain ⟨m, hm⟩ := MetaTimeline.get_ok h.startsAfter.linked h.ne_null (2 ^ 64 - 1)
  simp only [purgeDatabase, MetaTimeline.purge_of_startsAfter h.startsAfter, Exec.ok_bind, hm]
  rfl

private theorem databasePurged_self {e : String × MetaTimeline DbInfo} (h : NothingBefore p e.2) :
    DatabasePurged p e e where
  name := rfl
  get _ _ := rfl
  linked := h.startsAfter.linked
  tables info hinfo := ⟨info, hinfo, List.forall₂_same.mpr fun e he =>
    ⟨rfl, MetaTimeline.purgedTo_self (h.tables info hinfo e he)⟩⟩

/-- A database purged as it should be had nothing before the checkpoint: it is not written, so
    neither are its tables. -/
theorem nothingBefore_of_purge {e e' : String × MetaTimeline DbInfo}
    (hpurge : purgeDatabase p e = .ok e') (h : DatabasePurged p e e') : NothingBefore p e.2 := by
  obtain ⟨db, hdb, hrest⟩ := Exec.of_bind hpurge
  obtain ⟨m, hm, hret⟩ := Exec.of_bind hrest
  cases hret
  have hstarts := MetaTimeline.startsAfter_of_purge hdb h.linked
  have hsame : db = e.2 := by
    rw [MetaTimeline.purge_of_startsAfter hstarts] at hdb
    cases hdb
    rfl
  subst hsame
  constructor
  · intro hnull
    rw [MetaTimeline.get, hnull] at hm
    cases hm
  · exact hstarts
  · intro info hinfo e he
    obtain ⟨info', hinfo', htables⟩ := h.tables info hinfo
    have hsame : info' = info := by
      rw [hinfo] at hinfo'
      cases hinfo'
      rfl
    subst hsame
    have := List.forall₂_same.mp htables e he
    exact MetaTimeline.startsAfter_of_purge this.2.purge this.2.linked

theorem purge_eq_ok {c c' : MetaDataCollection} :
    c.purge p = .ok c' ↔ ∃ dbs, c' = { c with m_dbs := dbs } ∧
      List.Forall₂ (fun e e' => purgeDatabase p e = .ok e') c.m_dbs dbs := by
  rw [purge_eq, Exec.bind_eq_ok]
  constructor
  · rintro ⟨dbs, hdbs, hret⟩
    cases hret
    exact ⟨dbs, rfl, Exec.mapM_eq_ok.mp hdbs⟩
  · rintro ⟨dbs, rfl, hdbs⟩
    exact ⟨dbs, Exec.mapM_eq_ok.mpr hdbs, rfl⟩

end MetaDataCollection

/-! ## `purge` -/

/-- `purge` of a timeline, and of the collection, is invisible to the readers from its checkpoint on
    exactly when there is nothing that it takes away. -/
theorem purge_invisible_iff (p : Nat) :
    (∀ (T : Type) (t : MetaTimeline T),
      (∃ t', MetaTimeline.PurgedTo p t t') ↔ t.m_current.StartsAfter p) ∧
    ∀ c : MetaDataCollection,
      (∃ c', c.purge p = .ok c' ∧ List.Forall₂ (DatabasePurged p) c.m_dbs c'.m_dbs) ↔
        ∀ e ∈ c.m_dbs, NothingBefore p e.2 := by
  constructor
  · intro T t
    constructor
    · rintro ⟨t', h⟩
      exact MetaTimeline.startsAfter_of_purge h.purge h.linked
    · intro h
      exact ⟨t, MetaTimeline.purgedTo_self h⟩
  · intro c
    constructor
    · rintro ⟨c', hpurge, hdbs⟩
      obtain ⟨dbs, rfl, hpurged⟩ := MetaDataCollection.purge_eq_ok.mp hpurge
      intro e he
      -- the database at the same place after the purge
      obtain ⟨i, hi, rfl⟩ := List.getElem_of_mem he
      have hi' : i < dbs.length := hpurged.length_eq ▸ hi
      exact MetaDataCollection.nothingBefore_of_purge (hpurged.get hi hi') (hdbs.get hi hi')
    · intro h
      have hsame : c.purge p = .ok c := MetaDataCollection.purge_eq_ok.mpr
        ⟨c.m_dbs, rfl, List.forall₂_same.mpr fun e he =>
          MetaDataCollection.purgeDatabase_self (h e he)⟩
      exact ⟨c, hsame, List.forall₂_same.mpr fun e he =>
        MetaDataCollection.databasePurged_self (h e he)⟩

/-- Of a table put at 10 and at 20, the version of 10 is in force at 15, and a purge frees it. -/
theorem purge_frees_version_in_force :
    ¬∃ t t', (MetaTimeline.create 1 : MetaTimeline TableMeta).run
      [.put (some {}) 10, .put (some {}) 20] = .ok t ∧ MetaTimeline.PurgedTo 15 t t' := by
  rintro ⟨t, t', hrun, h⟩
  cases hrun
  exact absurd (MetaTimeline.startsAfter_of_purge h.purge h.linked) (by decide)

end DBStream.Native.Meta
