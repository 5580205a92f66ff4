import DBStream.ForStd.Moves
import DBStream.Native.TableRenames
import DBStream.Spec.IndexStatementEquiv

/-!
# `RENAME TABLE` as moves one after another

The tables that a collection answers for are a partial map, and a statement is a list of moves in it.
`renameTable` looks at all pairs before the first move, so it does what the moves in turn would do if
and only if no name occurs twice, or both views refuse the list (`renameTable_sequential_iff`).
-/

namespace DBStream.Native.Meta

open PartialMap

/-! ## The newest versions -/

section

variable {V : Type} {caseSensitive : Bool} {name name' : String} {entries : List (String × V)} {v : V}

theorem nameEq_congr (h : nameKey caseSensitive name = nameKey caseSensitive name') (other : String) :
    nameEq caseSensitive other name = nameEq caseSensitive other name' := by
  rw [Bool.eq_iff_iff, nameEq_iff, nameEq_iff, h]

theorem findName_congr (h : nameKey caseSensitive name = nameKey caseSensitive name') :
    findName caseSensitive name entries = findName caseSensitive name' entries := by
  simp only [findName, nameEq_congr h]

theorem findName_cons_key (e : String × V) :
    findName caseSensitive name (e :: entries) =
      if nameKey caseSensitive e.1 = nameKey caseSensitive name then some e.2
      else findName caseSensitive name entries :=
  (findName_cons e).trans (if_congr nameEq_iff rfl rfl)

theorem findName_setName (hfound : (findName caseSensitive name entries).isSome) :
    findName caseSensitive name' (setName caseSensitive name v entries) =
      if nameKey caseSensitive name' = nameKey caseSensitive name then some v
      else findName caseSensitive name' entries := by
  induction entries with
  | nil => cases hfound
  | cons e entries ih =>
    rw [findName_cons_key] at hfound
    by_cases he : nameKey caseSensitive e.1 = nameKey caseSensitive name
    · rw [setName, if_pos (nameEq_iff.mpr he), findName_cons_key, findName_cons_key, he]
      by_cases hsame : nameKey caseSensitive name' = nameKey caseSensitive name
      · rw [if_pos hsame.symm, if_pos hsame]
      · rw [if_neg (Ne.symm hsame), if_neg hsame, if_neg (Ne.symm hsame)]
    · rw [if_neg he] at hfound
      rw [setName, if_neg (mt nameEq_iff.mp he), findName_cons_key, findName_cons_key, ih hfound]
      by_cases hsame : nameKey caseSensitive name' = nameKey caseSensitive name
      · rw [if_pos hsame, if_pos hsame, hsame, if_neg he]
      · rw [if_neg hsame, if_neg hsame]

private theorem findName_insertName (hfree : findName caseSensitive name entries = none) :
    findName caseSensitive name' (insertName caseSensitive name v entries) =
      if nameKey caseSensitive name' = nameKey caseSensitive name then some v
      else findName caseSensitive name' entries := by
  rw [insertName, hfree, if_neg (by simp)]
  have happend : findName caseSensitive name' (entries ++ [(name, v)]) =
      (findName caseSensitive name' entries).or (if nameEq caseSensitive name name' then some v else none) := by
    rw [findName, findName, List.find?_append, List.find?_singleton]
    cases entries.find? fun e => nameEq caseSensitive e.1 name' with
    | none => cases nameEq caseSensitive name name' <;> rfl
    | some e => rfl
  rw [happend]
  by_cases hsame : nameKey caseSensitive name' = nameKey caseSensitive name
  · rw [findName_congr hsame, hfree, if_pos hsame, if_pos (nameEq_iff.mpr hsame.symm)]
    rfl
  · rw [if_neg hsame, if_neg fun h => hsame (nameEq_iff.mp h).symm, Option.or_none]

/-- The entry with a name is replaced, or a new one is inserted. -/
def upsertName (caseSensitive : Bool) (name : String) (v : V) (entries : List (String × V)) :
    List (String × V) :=
  if (findName caseSensitive name entries).isSome then setName caseSensitive name v entries
  else insertName caseSensitive name v entries

private theorem findName_upsertName :
    findName caseSensitive name' (upsertName caseSensitive name v entries) =
      if nameKey caseSensitive name' = nameKey caseSensitive name then some v
      else findName caseSensitive name' entries := by
  unfold upsertName
  split
  case isTrue hfound => exact findName_setName hfound
  case isFalse hfree => exact findName_insertName (by simpa using hfree)

end

namespace MetaTimeline

variable {T : Type} {t : MetaTimeline T} {cp x : Nat}

def newest (t : MetaTimeline T) : Option T :=
  match t.m_current with
  | .version m _ _ => m
  | _ => none

/-- The newest version begins at a checkpoint, or before it. -/
def Until (cp : Nat) (t : MetaTimeline T) : Prop :=
  ∃ m startPos prev, t.m_current = .version m startPos prev ∧ startPos ≤ cp

/-- The newest version begins before a checkpoint. -/
def Before (cp : Nat) (t : MetaTimeline T) : Prop :=
  ∃ m startPos prev, t.m_current = .version m startPos prev ∧ startPos < cp

theorem Before.until (h : t.Before cp) : t.Until cp := by
  obtain ⟨m, startPos, prev, heq, hlt⟩ := h
  exact ⟨m, startPos, prev, heq, hlt.le⟩

theorem Until.get (h : t.Until cp) (hx : cp ≤ x) : t.get x = .ok t.newest := by
  obtain ⟨m, startPos, prev, heq, hle⟩ := h
  rw [MetaTimeline.get, newest, heq]
  exact if_pos (hle.trans hx)

end MetaTimeline

/-- Names of tables with the same key are the same for `nameCompare`. -/
def TableName.key (caseSensitive : Bool) (n : TableName) : String × String :=
  (nameKey caseSensitive n.database, nameKey caseSensitive n.table)

namespace MetaDataCollection

/-- The newest version of a database. -/
def current (c : MetaDataCollection) (database : String) : Option DbInfo :=
  (findName c.caseSensitive database c.m_dbs).bind MetaTimeline.newest

/-- The versions of a table, in the newest version of its database. -/
def timeline (c : MetaDataCollection) (n : TableName) : Option (MetaTimeline TableMeta) :=
  (c.current n.database).bind fun currentDB => findName c.caseSensitive n.table currentDB.tables

/-- The table that has a name now. -/
def lookup (c : MetaDataCollection) (n : TableName) : Option TableMeta :=
  (c.timeline n).bind MetaTimeline.newest

/-- Nothing in the collection begins behind a checkpoint, and there is no server to ask. -/
structure Settled (c : MetaDataCollection) (cp : Nat) : Prop where
  client : c.m_client = none
  database : ∀ name db, findName c.caseSensitive name c.m_dbs = some db → db.Until cp
  table : ∀ n metas, c.timeline n = some metas → metas.Until cp

variable {c : MetaDataCollection} {cp x : Nat} {n n' : TableName}

theorem current_congr {a b : String} (h : nameKey c.caseSensitive a = nameKey c.caseSensitive b) :
    c.current a = c.current b := by
  rw [current, current, findName_congr h]

private theorem timeline_congr (h : n.key c.caseSensitive = n'.key c.caseSensitive) :
    c.timeline n = c.timeline n' := by
  rw [timeline, timeline, current_congr (congrArg Prod.fst h)]
  exact congrArg _ (funext fun currentDB => findName_congr (congrArg Prod.snd h))

theorem respects_lookup (c : MetaDataCollection) : Respects (TableName.key c.caseSensitive) c.lookup := by
  intro n n' h
  rw [lookup, lookup, timeline_congr h]

theorem Settled.get (h : c.Settled cp) (hx : cp ≤ x) (n : TableName) :
    c.get n.database n.table x = .ok (c.lookup n) := by
  have htable := h.table n
  rw [lookup]
  rw [MetaDataCollection.get]
  rw [timeline, current] at htable ⊢
  cases hdb : findName c.caseSensitive n.database c.m_dbs with
  | none => rfl
  | some db =>
    rw [hdb, Option.bind_some] at htable
    dsimp only
    rw [Option.bind_some, (h.database _ db hdb).get hx, Exec.ok_bind]
    cases hnewest : db.newest with
    | none => rfl
    | some currentDB =>
      rw [hnewest, Option.bind_some] at htable
      rw [Option.bind_some]
      dsimp only
      cases hmetas : findName c.caseSensitive n.table currentDB.tables with
      | none => rfl
      | some metas => exact (htable metas hmetas).get hx

theorem Settled.getDatabase (h : c.Settled cp) (hx : cp ≤ x) (database : String) :
    c.getDatabase database x = .ok (c.current database, c) := by
  unfold MetaDataCollection.getDatabase current
  rw [h.client]
  cases hdb : findName c.caseSensitive database c.m_dbs with
  | none => rfl
  | some db =>
    dsimp only
    rw [(h.database _ db hdb).get hx, Exec.ok_bind, Option.bind_some]
    cases db.newest <;> rfl

/-! ## What `put` does -/

/-- The collection with other versions of one database. -/
def setDatabase (c : MetaDataCollection) (name : String) (db : MetaTimeline DbInfo) :
    MetaDataCollection :=
  { c with m_dbs := setName c.caseSensitive name db c.m_dbs }

/-- The collection with other versions of one table, if its database is there. -/
def setTimeline (c : MetaDataCollection) (n : TableName) (metas : MetaTimeline TableMeta) :
    MetaDataCollection :=
  match findName c.caseSensitive n.database c.m_dbs with
  | none => c
  | some db =>
    match db.m_current with
    | .version (some currentDB) startPos prev =>
      let currentDB := { currentDB with
        tables := upsertName c.caseSensitive n.table metas currentDB.tables }
      c.setDatabase n.database { db with m_current := .version (some currentDB) startPos prev }
    | _ => c

variable {metas : MetaTimeline TableMeta} {currentDB : DbInfo} {m : TableMeta}

theorem current_eq_some : c.current n.database = some currentDB ↔ ∃ db startPos prev,
    findName c.caseSensitive n.database c.m_dbs = some db ∧
      db.m_current = .version (some currentDB) startPos prev := by
  simp only [current, Option.bind_eq_some_iff, MetaTimeline.newest]
  constructor
  · rintro ⟨db, hdb, hnewest⟩
    split at hnewest
    case h_1 m startPos prev hcurrent =>
      cases hnewest
      exact ⟨db, startPos, prev, hdb, hcurrent⟩
    case h_2 => cases hnewest
  · rintro ⟨db, startPos, prev, hdb, hcurrent⟩
    exact ⟨db, hdb, by rw [hcurrent]⟩

theorem key_eq_iff {caseSensitive : Bool} : n'.key caseSensitive = n.key caseSensitive ↔
    nameKey caseSensitive n'.database = nameKey caseSensitive n.database ∧
      nameKey caseSensitive n'.table = nameKey caseSensitive n.table := Prod.ext_iff

theorem findName_setTimeline (metas : MetaTimeline TableMeta)
    (hcurrent : c.current n.database = some currentDB) :
    ∃ db, db.newest.isSome ∧ (∀ cp, (∀ db', findName c.caseSensitive n.database c.m_dbs = some db' →
        db'.Until cp) → db.Until cp) ∧
      (∀ n' : TableName, nameKey c.caseSensitive n'.database = nameKey c.caseSensitive n.database →
        (db.newest.bind fun currentDB => findName c.caseSensitive n'.table currentDB.tables) =
          if n'.key c.caseSensitive = n.key c.caseSensitive then some metas else c.timeline n') ∧
      (∀ name, findName c.caseSensitive name (c.setTimeline n metas).m_dbs =
        if nameKey c.caseSensitive name = nameKey c.caseSensitive n.database then some db
        else findName c.caseSensitive name c.m_dbs) ∧
      c.setTimeline n metas = { c with m_dbs := (c.setTimeline n metas).m_dbs } := by
  obtain ⟨db, startPos, prev, hdb, hversion⟩ := current_eq_some.mp hcurrent
  have heq : c.setTimeline n metas = c.setDatabase n.database { db with
      m_current := .version (some { currentDB with
        tables := upsertName c.caseSensitive n.table metas currentDB.tables }) startPos prev } := by
    unfold setTimeline
    rw [hdb]
    dsimp only
    rw [hversion]
  rw [heq]
  refine ⟨_, rfl, ?_, ?_, fun name => findName_setName (by rw [hdb]; rfl), rfl⟩
  · intro cp huntil
    obtain ⟨m, startPos', prev', hcur, hle⟩ := huntil db hdb
    cases hversion.symm.trans hcur
    exact ⟨_, _, _, rfl, hle⟩
  · intro n' hsame
    have hother : c.timeline n' = findName c.caseSensitive n'.table currentDB.tables := by
      rw [timeline, current_congr hsame, hcurrent, Option.bind_some]
    rw [hother]
    refine findName_upsertName.trans (if_congr ?_ rfl rfl)
    rw [key_eq_iff, and_iff_right hsame]

theorem timeline_setTimeline (hcurrent : c.current n.database = some currentDB) (n' : TableName) :
    (c.setTimeline n metas).timeline n' =
      if n'.key c.caseSensitive = n.key c.caseSensitive then some metas else c.timeline n' := by
  obtain ⟨db, -, -, htables, hfind, heq⟩ := findName_setTimeline metas hcurrent
  have hcase : (c.setTimeline n metas).caseSensitive = c.caseSensitive := by rw [heq]
  rw [timeline, current, hcase, hfind]
  by_cases hsame : nameKey c.caseSensitive n'.database = nameKey c.caseSensitive n.database
  · rw [if_pos hsame]
    exact htables n' hsame
  · rw [if_neg hsame, if_neg fun h => hsame (key_eq_iff.mp h).1]
    rfl

theorem current_setTimeline (hcurrent : c.current n.database = some currentDB) (name : String) :
    ((c.setTimeline n metas).current name).isSome = (c.current name).isSome := by
  obtain ⟨db, hnewest, -, -, hfind, heq⟩ := findName_setTimeline metas hcurrent
  have hcase : (c.setTimeline n metas).caseSensitive = c.caseSensitive := by rw [heq]
  rw [current, hcase, hfind]
  by_cases hsame : nameKey c.caseSensitive name = nameKey c.caseSensitive n.database
  · rw [if_pos hsame, current_congr hsame, hcurrent]
    exact hnewest
  · rw [if_neg hsame]
    rfl

theorem Settled.setTimeline (h : c.Settled cp) (hcurrent : c.current n.database = some currentDB)
    (hmetas : metas.Until cp) : (c.setTimeline n metas).Settled cp := by
  obtain ⟨db, -, huntil, -, hfind, heq⟩ := findName_setTimeline metas hcurrent
  have hcase : (c.setTimeline n metas).caseSensitive = c.caseSensitive := by rw [heq]
  have hclient : (c.setTimeline n metas).m_client = c.m_client := by rw [heq]
  refine ⟨hclient.trans h.client, fun name db' hdb' => ?_, fun n' metas' hmetas' => ?_⟩
  · rw [hcase, hfind] at hdb'
    split at hdb'
    · cases hdb'
      exact huntil cp (h.database _)
    · exact h.database _ _ hdb'
  · rw [timeline_setTimeline hcurrent] at hmetas'
    split at hmetas'
    · cases hmetas'
      exact hmetas
    · exact h.table n' metas' hmetas'

/-- The versions a new one is put behind: those of the table, or none yet. -/
def owner (c : MetaDataCollection) (n : TableName) : MetaTimeline TableMeta :=
  (c.timeline n).getD (MetaTimeline.create c.m_maxTableId)

/-- The meta with the id that it gets. -/
def withId (c : MetaDataCollection) (n : TableName) (m : TableMeta) : TableMeta :=
  setId m (genTableId (c.owner n).m_id (c.owner n).m_version)

def linked (c : MetaDataCollection) (n : TableName) (m : TableMeta) (cp : Nat) :
    MetaTimeline TableMeta where
  m_current := .version (some (c.withId n m)) cp (c.owner n).m_current
  m_id := (c.owner n).m_id
  m_version := ((c.owner n).m_version + 1) % 2 ^ 16

/-- A table that is new takes a number. -/
def nextTableId (c : MetaDataCollection) (n : TableName) : Nat :=
  if (c.timeline n).isSome then c.m_maxTableId else c.m_maxTableId + 1

/-- The versions of a table begin before a checkpoint, if there are any. -/
def Old (c : MetaDataCollection) (cp : Nat) (n : TableName) : Prop :=
  ∀ metas, c.timeline n = some metas → metas.Before cp

theorem link_before (h : metas.Before cp) (m : Option TableMeta) :
    metas.link m cp = .ok (0, m, { metas with m_current := .version m cp metas.m_current }) := by
  obtain ⟨m', startPos, prev, heq, hlt⟩ := h
  rw [MetaTimeline.link, heq]
  exact if_neg (by omega)

theorem put_of_putIn {m m' : Option TableMeta} {id : Nat} (hs : c.Settled cp)
    (hcurrent : c.current n.database = some currentDB)
    (hputIn : c.putIn currentDB n.table m cp = .ok (0, m', { currentDB with
      tables := upsertName c.caseSensitive n.table metas currentDB.tables }, id)) :
    c.put n.database n.table m cp =
      ({ c.setTimeline n metas with m_maxTableId := id }.addTable m').map fun c => (0, m', c) := by
  obtain ⟨db, startPos, prev, hdb, hversion⟩ := current_eq_some.mp hcurrent
  have hnewest : db.newest = some currentDB := by rw [MetaTimeline.newest, hversion]
  have hle : startPos ≤ cp := by
    obtain ⟨m', startPos', prev', hcur, hle⟩ := hs.database _ db hdb
    cases hversion.symm.trans hcur
    exact hle
  unfold MetaDataCollection.put setTimeline
  rw [hdb]
  dsimp only
  rw [(hs.database _ db hdb).get (Nat.le_refl cp), Exec.ok_bind, hnewest, hversion]
  dsimp only
  rw [hputIn, Exec.ok_bind]
  dsimp only
  rw [if_neg (by decide), MetaTimeline.replaceAt, hversion]
  dsimp only
  rw [if_pos hle]
  rfl

theorem put_eq (hs : c.Settled cp) (hcurrent : c.current n.database = some currentDB)
    (hold : c.Old cp n) (hname : m.m_tableName = n.table) :
    c.put n.database n.table (some m) cp = (c.m_allTables.put (c.withId n m)).map fun tree =>
      (0, some (c.withId n m), { c.setTimeline n (c.linked n m cp) with
        m_allTables := tree, m_maxTableId := c.nextTableId n }) := by
  have htimeline : c.timeline n = findName c.caseSensitive n.table currentDB.tables := by
    rw [timeline, hcurrent, Option.bind_some]
  have hputIn : c.putIn currentDB n.table (some m) cp = .ok (0, some (c.withId n m), { currentDB with
      tables := upsertName c.caseSensitive n.table (c.linked n m cp) currentDB.tables },
      c.nextTableId n) := by
    unfold putIn upsertName nextTableId linked withId owner
    rw [htimeline]
    cases hmetas : findName c.caseSensitive n.table currentDB.tables with
    | none =>
      rw [← hname]
      rfl
    | some metas =>
      have hbefore := hold metas (htimeline.trans hmetas)
      dsimp only [Option.getD_some, MetaTimeline.put, MetaTimeline.assignId]
      rw [link_before (by exact hbefore)]
      rfl
  obtain ⟨_, _, _, _, _, heq⟩ := findName_setTimeline (c.linked n m cp) hcurrent
  have htree : (c.setTimeline n (c.linked n m cp)).m_allTables = c.m_allTables := by rw [heq]
  rw [put_of_putIn hs hcurrent hputIn, addTable]
  rw [htree]
  cases c.m_allTables.put (c.withId n m) <;> rfl

theorem disable_eq (hs : c.Settled cp) (hmetas : c.timeline n = some metas) (hold : metas.Before cp) :
    c.put n.database n.table none cp = .ok (0, none,
      c.setTimeline n { metas with m_current := .version none cp metas.m_current }) := by
  obtain ⟨currentDB, hcurrent, hfind⟩ := Option.bind_eq_some_iff.mp hmetas
  have hputIn : c.putIn currentDB n.table none cp = .ok (0, none, { currentDB with
      tables := upsertName c.caseSensitive n.table
        { metas with m_current := .version none cp metas.m_current } currentDB.tables },
      c.m_maxTableId) := by
    unfold putIn upsertName
    rw [hfind]
    dsimp only [MetaTimeline.put, MetaTimeline.assignId]
    rw [link_before hold]
    rfl
  rw [put_of_putIn hs hcurrent hputIn]
  obtain ⟨_, _, _, _, _, heq⟩ := findName_setTimeline
    { metas with m_current := .version none cp metas.m_current } hcurrent
  rw [heq]
  rfl

/-! ## One rename -/

theorem error_bind {α β : Type} (e : Fault) (f : α → Exec β) : (Except.error e >>= f) = .error e := rfl

/-- The meta that takes the new name. -/
def renamed (d : TableName) (m : TableMeta) : TableMeta :=
  { m with m_tableName := d.table, m_dbName := d.database }

/-- The collection after the new name got its version. -/
def copiedTo (c : MetaDataCollection) (d : TableName) (m : TableMeta) (cp : Nat)
    (tree : TableIdTree TableMeta) : MetaDataCollection :=
  { c.setTimeline d (c.linked d (renamed d m.copied) cp) with
    m_allTables := tree
    m_maxTableId := c.nextTableId d }

/-- The versions of a name that is free again. -/
def disabled (c : MetaDataCollection) (s : TableName) (cp : Nat) : MetaTimeline TableMeta :=
  { c.owner s with m_current := .version none cp (c.owner s).m_current }

variable {s d : TableName}

theorem key_ne_of_lookup (hsrc : c.lookup s = some m) (hdest : c.lookup d = none) :
    s.key c.caseSensitive ≠ d.key c.caseSensitive := by
  intro heq
  rw [c.respects_lookup s d heq, hdest] at hsrc
  cases hsrc

theorem copiedTo_spec (hs : c.Settled cp) (hdb : (c.current d.database).isSome)
    (tree : TableIdTree TableMeta) :
    (c.copiedTo d m cp tree).Settled cp ∧ (c.copiedTo d m cp tree).caseSensitive = c.caseSensitive ∧
      (∀ n, (c.copiedTo d m cp tree).timeline n = if n.key c.caseSensitive = d.key c.caseSensitive then
        some (c.linked d (renamed d m.copied) cp) else c.timeline n) ∧
      ∀ name, ((c.copiedTo d m cp tree).current name).isSome = (c.current name).isSome := by
  obtain ⟨currentDB, hcurrent⟩ := Option.isSome_iff_exists.mp hdb
  have huntil : (c.linked d (renamed d m.copied) cp).Until cp := ⟨_, _, _, rfl, Nat.le_refl cp⟩
  have hsettled := hs.setTimeline hcurrent huntil
  obtain ⟨_, _, _, _, _, heq⟩ := findName_setTimeline
    (c.linked d (renamed d m.copied) cp) hcurrent
  have hcase : (c.setTimeline d (c.linked d (renamed d m.copied) cp)).caseSensitive =
    c.caseSensitive := by rw [heq]
  exact ⟨⟨hsettled.client, hsettled.database, hsettled.table⟩, hcase, timeline_setTimeline hcurrent,
    current_setTimeline hcurrent⟩

theorem renameOne_eq (hs : c.Settled cp) (hcp : cp ≤ maxCheckPoint) (hsrc : c.lookup s = some m)
    (hdest : c.lookup d = none) (hdb : (c.current d.database).isSome) (hsold : c.Old cp s)
    (hdold : c.Old cp d) :
    c.renameOne s.database s.table d.database d.table cp = (do
      let _ ← m.copy
      let tree ← c.m_allTables.put (c.withId d (renamed d m.copied))
      return (0, (c.copiedTo d m cp tree).setTimeline s (c.disabled s cp))) := by
  obtain ⟨currentDB, hcurrent⟩ := Option.isSome_iff_exists.mp hdb
  obtain ⟨metas, hmetas, -⟩ := Option.bind_eq_some_iff.mp hsrc
  have hfree : (c.get d.database d.table maxCheckPoint).map Option.isSome = .ok false := by
    rw [hs.get hcp d, hdest]
    rfl
  unfold renameOne
  rw [hs.get hcp s, Exec.ok_bind, hsrc]
  dsimp only
  rw [hfree, ite_self, Exec.ok_bind, if_neg (by decide)]
  cases hcopy : m.copy with
  | error e => exact (error_bind e _).trans (error_bind e _).symm
  | ok v =>
    obtain ⟨-, rfl⟩ := copy_eq_ok.mp hcopy
    have hput := put_eq hs hcurrent hdold (m := renamed d m.copied) rfl
    rw [Exec.ok_bind, Exec.ok_bind]
    rw [show (c.put d.database d.table (some { m.copied with
      m_tableName := d.table, m_dbName := d.database }) cp) = _ from hput]
    cases htree : c.m_allTables.put (c.withId d (renamed d m.copied)) with
    | error e => rfl
    | ok tree =>
      obtain ⟨hsettled, hcase, htimeline, -⟩ := copiedTo_spec (m := m) hs hdb tree
      have hsame : (c.copiedTo d m cp tree).timeline s = some metas := by
        rw [htimeline, if_neg (key_ne_of_lookup hsrc hdest), hmetas]
      have howner : c.owner s = metas := by rw [owner, hmetas]; rfl
      have hdisable := disable_eq hsettled hsame (hsold metas hmetas)
      dsimp only [Except.map]
      rw [Exec.ok_bind, Exec.ok_bind]
      unfold copiedTo at hdisable ⊢
      rw [hdisable, disabled, howner]
      rfl

/-- The collection after one rename. -/
def moved (c : MetaDataCollection) (s d : TableName) (m : TableMeta) (cp : Nat)
    (tree : TableIdTree TableMeta) : MetaDataCollection :=
  (c.copiedTo d m cp tree).setTimeline s (c.disabled s cp)

/-- A table under its new name: what the collection answers then. -/
theorem moved_spec (hs : c.Settled cp) (hsrc : c.lookup s = some m) (hdest : c.lookup d = none)
    (hdb : (c.current d.database).isSome) (tree : TableIdTree TableMeta) :
    (c.moved s d m cp tree).Settled cp ∧ (c.moved s d m cp tree).caseSensitive = c.caseSensitive ∧
      (∀ n, n.key c.caseSensitive ≠ s.key c.caseSensitive → n.key c.caseSensitive ≠ d.key c.caseSensitive →
        (c.moved s d m cp tree).timeline n = c.timeline n) ∧
      (∀ n, (c.moved s d m cp tree).lookup n = if n.key c.caseSensitive = d.key c.caseSensitive then
        some (c.withId d (renamed d m.copied))
        else if n.key c.caseSensitive = s.key c.caseSensitive then none else c.lookup n) ∧
      (∀ name, ((c.moved s d m cp tree).current name).isSome = (c.current name).isSome) ∧
      (c.moved s d m cp tree).m_allTables = tree ∧
      (c.moved s d m cp tree).m_maxTableId = c.nextTableId d := by
  obtain ⟨hsettled, hcase, htimeline, hdbs⟩ := copiedTo_spec (m := m) hs hdb tree
  obtain ⟨metas, hmetas, -⟩ := Option.bind_eq_some_iff.mp hsrc
  obtain ⟨currentDB, hcurrent, -⟩ := Option.bind_eq_some_iff.mp hmetas
  have hne := key_ne_of_lookup hsrc hdest
  obtain ⟨currentDB', hcurrent'⟩ := Option.isSome_iff_exists.mp
    ((hdbs s.database).trans (by rw [hcurrent]; rfl))
  obtain ⟨_, _, _, _, _, heq⟩ := findName_setTimeline (c.disabled s cp) hcurrent'
  have huntil : (c.disabled s cp).Until cp := ⟨_, _, _, rfl, Nat.le_refl cp⟩
  have htimeline' (n : TableName) : (c.moved s d m cp tree).timeline n =
      if n.key c.caseSensitive = s.key c.caseSensitive then some (c.disabled s cp)
      else if n.key c.caseSensitive = d.key c.caseSensitive then some (c.linked d (renamed d m.copied) cp)
      else c.timeline n := by
    rw [← htimeline, ← hcase]
    exact timeline_setTimeline hcurrent' n
  refine ⟨hsettled.setTimeline hcurrent' huntil, ?_, fun n h₁ h₂ => ?_, fun n => ?_, fun name => ?_, ?_, ?_⟩
  · rw [moved, heq]
    exact hcase
  · rw [htimeline', if_neg h₁, if_neg h₂]
  · rw [lookup, htimeline']
    by_cases h₁ : n.key c.caseSensitive = s.key c.caseSensitive
    · rw [if_pos h₁, if_neg (h₁ ▸ hne), if_pos h₁]
      rfl
    · rw [if_neg h₁, if_neg h₁]
      split <;> rfl
  · exact (current_setTimeline hcurrent' name).trans (hdbs name)
  · rw [moved, heq]
    rfl
  · rw [moved, heq]
    rfl

end MetaDataCollection

/-! ## Renames one after another -/

/-- A name with its database, if there is one. -/
def TableName.resolved (n : TableName) (usedDb : String) : Option TableName :=
  (n.databaseOr usedDb).map fun database => { n with database := database }

/-- The pairs of names of a statement. -/
def resolvedPairs (usedDb : String) (tables : List (TableName × TableName)) :
    Option (List (TableName × TableName)) :=
  tables.mapM fun p => do return (← p.1.resolved usedDb, ← p.2.resolved usedDb)

namespace MetaDataCollection

/-- A destination is in a database that is there. -/
def hasDatabase (c : MetaDataCollection) (d : TableName) : Bool := (c.current d.database).isSome

/-- What the first loop of `renameTable` looks for. -/
def passes (c : MetaDataCollection) (ps : List (TableName × TableName)) : Bool :=
  ps.all (canMove c.hasDatabase c.lookup)

/-- The tables after all renames, if each of them can be made in turn. -/
def sequential (c : MetaDataCollection) (tables : RenameTable) :
    Option (TableName → Option TableMeta) :=
  (resolvedPairs tables.usedDb tables.tables).bind
    (moveAll (TableName.key c.caseSensitive) c.hasDatabase renamed c.lookup)

/-- The metas that get the new names, with their ids. -/
def newMetas (c : MetaDataCollection) (maxTableId : Nat) :
    List (TableName × TableName) → List TableMeta
  | [] => []
  | (s, d) :: ps =>
    let c' := { c with m_maxTableId := maxTableId }
    c'.withId d (renamed d ((c.lookup s).getD {}).copied) :: newMetas c (c'.nextTableId d) ps

/-- Each table can be copied, and the tree of the ids takes the copies. -/
def Movable (c : MetaDataCollection) (ps : List (TableName × TableName)) : Prop :=
  (∀ p ∈ ps, ∀ m, c.lookup p.1 = some m → m.Written) ∧
    ∃ tree, (c.newMetas c.m_maxTableId ps).foldlM TableIdTree.put c.m_allTables = .ok tree

/-! ## Both loops -/

variable {c : MetaDataCollection} {cp : Nat} {usedDb : String}
  {tables ps : List (TableName × TableName)}

/-- The second loop on names with their databases. -/
def runPairs (c : MetaDataCollection) (cp : Nat) : List (TableName × TableName) → Exec MetaDataCollection
  | [] => .ok c
  | (s, d) :: ps => do
    let (_, c) ← c.renameOne s.database s.table d.database d.table cp
    runPairs c cp ps

theorem resolvedPairs_cons (p : TableName × TableName) :
    resolvedPairs usedDb (p :: tables) = (p.1.resolved usedDb).bind fun s =>
      (p.2.resolved usedDb).bind fun d => (resolvedPairs usedDb tables).map ((s, d) :: ·) := by
  rw [resolvedPairs, List.mapM_cons]
  cases p.1.resolved usedDb with
  | none => rfl
  | some s =>
    cases p.2.resolved usedDb with
    | none => rfl
    | some d => exact (Option.map_eq_bind (f := ((s, d) :: ·))).symm

theorem checkRenames_eq (hs : c.Settled cp) (hcp : cp ≤ maxCheckPoint) :
    c.checkRenames usedDb tables = .ok ((resolvedPairs usedDb tables).any c.passes, c) := by
  induction tables with
  | nil => rfl
  | cons p tables ih =>
    obtain ⟨src, dest⟩ := p
    rw [resolvedPairs_cons, TableName.resolved, TableName.resolved, checkRenames]
    cases src.databaseOr usedDb with
    | none => rfl
    | some db =>
      cases dest.databaseOr usedDb with
      | none => rfl
      | some destDb =>
        have hsrc := hs.get hcp { src with database := db }
        have hdest := hs.get hcp { dest with database := destDb }
        dsimp only [Option.map_some, Option.bind_some] at hsrc hdest ⊢
        have hany : Option.any c.passes ((resolvedPairs usedDb tables).map
            (({ src with database := db }, { dest with database := destDb }) :: ·)) =
            (canMove c.hasDatabase c.lookup ({ src with database := db }, { dest with database := destDb }) &&
              (resolvedPairs usedDb tables).any c.passes) := by
          cases resolvedPairs usedDb tables with
          | none => exact (Bool.and_false _).symm
          | some ps => rfl
        rw [hany, hsrc, hs.getDatabase hcp, canMove, hasDatabase]
        simp only [Exec.ok_bind]
        rw [hdest, Exec.ok_bind, ih]
        cases c.lookup { src with database := db } with
        | none => rfl
        | some m =>
          cases c.current destDb with
          | none => rfl
          | some currentDB => cases c.lookup { dest with database := destDb } <;> rfl

theorem databaseOr_eq {n : TableName} {db : String} (h : n.databaseOr usedDb = some db) :
    (if n.database = "" then usedDb else n.database) = db := by
  unfold TableName.databaseOr AlterTable.nonEmpty at h
  split
  case isTrue hempty =>
    rw [if_pos hempty, Option.none_or] at h
    split at h
    · cases h
    · exact Option.some.inj h
  case isFalse hne =>
    rw [if_neg hne, Option.some_or] at h
    exact Option.some.inj h

theorem runRenames_eq (hps : resolvedPairs usedDb tables = some ps) (c : MetaDataCollection) :
    c.runRenames usedDb cp tables = c.runPairs cp ps := by
  induction tables generalizing c ps with
  | nil =>
    cases hps
    rfl
  | cons p tables ih =>
    rw [resolvedPairs_cons] at hps
    obtain ⟨s, hsrc, hps⟩ := Option.bind_eq_some_iff.mp hps
    obtain ⟨d, hdest, hps⟩ := Option.bind_eq_some_iff.mp hps
    obtain ⟨ps', hrest, rfl⟩ := Option.map_eq_some_iff.mp hps
    obtain ⟨db, hdb, rfl⟩ := Option.map_eq_some_iff.mp hsrc
    obtain ⟨destDb, hdestDb, rfl⟩ := Option.map_eq_some_iff.mp hdest
    rw [runRenames, runPairs, databaseOr_eq hdb, databaseOr_eq hdestDb]
    exact congrArg _ (funext fun x => ih hrest x.2)

/-! ## The run -/

def bare (m : TableMeta) : TableMeta := { m.copied with m_id := 0 }

/-- The same tables have the same names, up to their ids. -/
def Alike (T T' : TableName → Option TableMeta) : Prop := ∀ n, (T n).map bare = (T' n).map bare

/-- The pairs pass, no name occurs twice, and the collection takes new versions at a checkpoint. -/
structure Ready (c : MetaDataCollection) (cp : Nat) (ps : List (TableName × TableName)) : Prop where
  settled : c.Settled cp
  limit : cp ≤ maxCheckPoint
  old : ∀ p ∈ ps, c.Old cp p.1 ∧ c.Old cp p.2
  pass : ∀ p ∈ ps, canMove c.hasDatabase c.lookup p = true
  nodup : (keysOf (TableName.key c.caseSensitive) ps).Nodup

variable {s d : TableName} {m : TableMeta} {tree : TableIdTree TableMeta}

theorem Ready.first (h : c.Ready cp ((s, d) :: ps)) :
    (∃ m, c.lookup s = some m) ∧ c.lookup d = none ∧ (c.current d.database).isSome := by
  obtain ⟨hsrc, hdb, hdest⟩ := canMove_iff.mp (h.pass _ List.mem_cons_self)
  exact ⟨Option.isSome_iff_exists.mp hsrc, hdest, hdb⟩

theorem Ready.unchanged (h : c.Ready cp ((s, d) :: ps)) (tree : TableIdTree TableMeta)
    (hsrc : c.lookup s = some m) {p : TableName × TableName} (hp : p ∈ ps) :
    (c.moved s d m cp tree).timeline p.1 = c.timeline p.1 ∧
      (c.moved s d m cp tree).timeline p.2 = c.timeline p.2 := by
  obtain ⟨-, hdest, hdb⟩ := h.first
  obtain ⟨-, -, htimeline, -⟩ := moved_spec h.settled hsrc hdest hdb tree
  obtain ⟨-, hapart, -⟩ := nodup_keysOf_cons.mp h.nodup
  obtain ⟨h₁, h₂, h₃, h₄⟩ := hapart p hp
  exact ⟨htimeline _ h₁ h₂, htimeline _ h₃ h₄⟩

theorem Ready.hasDatabase_moved (h : c.Ready cp ((s, d) :: ps)) (hsrc : c.lookup s = some m) :
    (c.moved s d m cp tree).hasDatabase = c.hasDatabase := by
  obtain ⟨-, hdest, hdb⟩ := h.first
  obtain ⟨-, -, -, -, hdbs, -⟩ := moved_spec h.settled hsrc hdest hdb tree
  exact funext fun n => hdbs n.database

theorem Ready.moved (h : c.Ready cp ((s, d) :: ps)) (hsrc : c.lookup s = some m) :
    (c.moved s d m cp tree).Ready cp ps := by
  obtain ⟨-, hdest, hdb⟩ := h.first
  obtain ⟨hsettled, hcase, -⟩ := moved_spec h.settled hsrc hdest hdb tree
  refine ⟨hsettled, h.limit, fun p hp => ?_, fun p hp => ?_, ?_⟩
  · obtain ⟨h₁, h₂⟩ := h.unchanged tree hsrc hp
    rw [Old, Old, h₁, h₂]
    exact h.old p (List.mem_cons_of_mem _ hp)
  · obtain ⟨h₁, h₂⟩ := h.unchanged tree hsrc hp
    rw [canMove, h.hasDatabase_moved hsrc, lookup, lookup, h₁, h₂]
    exact h.pass p (List.mem_cons_of_mem _ hp)
  · rw [hcase]
    exact (nodup_keysOf_cons.mp h.nodup).2.2

theorem newMetas_congr {c' : MetaDataCollection} {maxTableId : Nat}
    (h : ∀ p ∈ ps, c'.timeline p.1 = c.timeline p.1 ∧ c'.timeline p.2 = c.timeline p.2) :
    c'.newMetas maxTableId ps = c.newMetas maxTableId ps := by
  induction ps generalizing maxTableId with
  | nil => rfl
  | cons p ps ih =>
    obtain ⟨⟨h₁, h₂⟩, hps⟩ := List.forall_mem_cons.mp h
    have howner : ({ c' with m_maxTableId := maxTableId } : MetaDataCollection).owner p.2 =
        ({ c with m_maxTableId := maxTableId } : MetaDataCollection).owner p.2 :=
      congrArg (Option.getD · _) h₂
    have hnext : ({ c' with m_maxTableId := maxTableId } : MetaDataCollection).nextTableId p.2 =
        ({ c with m_maxTableId := maxTableId } : MetaDataCollection).nextTableId p.2 := by
      show (if (c'.timeline p.2).isSome then _ else _) = if (c.timeline p.2).isSome then _ else _
      rw [h₂]
    rw [newMetas, newMetas, hnext, ih hps, withId, withId, howner, lookup, lookup, h₁]

theorem Ready.movable_cons (h : c.Ready cp ((s, d) :: ps)) (hsrc : c.lookup s = some m) :
    c.Movable ((s, d) :: ps) ↔ m.Written ∧
      ∃ tree, c.m_allTables.put (c.withId d (renamed d m.copied)) = .ok tree ∧
        (c.moved s d m cp tree).Movable ps := by
  obtain ⟨-, hdest, hdb⟩ := h.first
  have hmoved (tree : TableIdTree TableMeta) : (c.moved s d m cp tree).Movable ps ↔
      (∀ p ∈ ps, ∀ m, c.lookup p.1 = some m → m.Written) ∧
        ∃ tree', (c.newMetas (c.nextTableId d) ps).foldlM TableIdTree.put tree = .ok tree' := by
    obtain ⟨-, -, -, -, -, htree, hnext⟩ := moved_spec h.settled hsrc hdest hdb tree
    rw [Movable, htree, hnext, newMetas_congr fun p hp => h.unchanged tree hsrc hp]
    refine and_congr_left' (forall₂_congr fun p hp => ?_)
    rw [lookup, (h.unchanged tree hsrc hp).1, ← lookup]
  rw [Movable, newMetas, hsrc, List.forall_mem_cons, List.foldlM_cons]
  simp only [hmoved]
  constructor
  · rintro ⟨⟨hm, hps⟩, tree', hfold⟩
    obtain ⟨tree, hput, hfold⟩ := Exec.of_bind hfold
    exact ⟨hm m hsrc, tree, hput, hps, tree', hfold⟩
  · rintro ⟨hm, tree, hput, hps, tree', hfold⟩
    refine ⟨⟨fun m' hm' => ?_, hps⟩, tree', Exec.bind_eq_ok.mpr ⟨tree, hput, hfold⟩⟩
    cases hsrc.symm.trans hm'
    exact hm

theorem Ready.runPairs_cons (h : c.Ready cp ((s, d) :: ps)) (hsrc : c.lookup s = some m)
    {c' : MetaDataCollection} : c.runPairs cp ((s, d) :: ps) = .ok c' ↔ m.Written ∧
      ∃ tree, c.m_allTables.put (c.withId d (renamed d m.copied)) = .ok tree ∧
        (c.moved s d m cp tree).runPairs cp ps = .ok c' := by
  obtain ⟨-, hdest, hdb⟩ := h.first
  obtain ⟨hsold, hdold⟩ := h.old _ List.mem_cons_self
  rw [runPairs, renameOne_eq h.settled h.limit hsrc hdest hdb hsold hdold]
  simp only [Exec.bind_eq_ok]
  constructor
  · rintro ⟨⟨r, c₁⟩, ⟨v, hcopy, tree, hput, hret⟩, hrest⟩
    cases hret
    exact ⟨(copy_eq_ok.mp hcopy).1, tree, hput, hrest⟩
  · rintro ⟨hm, tree, hput, hrest⟩
    exact ⟨_, ⟨_, copy_eq_ok.mpr ⟨hm, rfl⟩, tree, hput, rfl⟩, hrest⟩

theorem Ready.runs_iff (h : c.Ready cp ps) : (∃ c', c.runPairs cp ps = .ok c') ↔ c.Movable ps := by
  induction ps generalizing c with
  | nil => exact iff_of_true ⟨c, rfl⟩ ⟨fun p hp => absurd hp List.not_mem_nil, c.m_allTables, rfl⟩
  | cons p ps ih =>
    obtain ⟨m, hsrc⟩ := h.first.1
    rw [h.movable_cons hsrc]
    constructor
    · rintro ⟨c', hrun⟩
      obtain ⟨hm, tree, hput, hrest⟩ := (h.runPairs_cons hsrc).mp hrun
      exact ⟨hm, tree, hput, (ih (h.moved hsrc)).mp ⟨c', hrest⟩⟩
    · rintro ⟨hm, tree, hput, hmovable⟩
      obtain ⟨c', hrest⟩ := (ih (h.moved hsrc)).mpr hmovable
      exact ⟨c', (h.runPairs_cons hsrc).mpr ⟨hm, tree, hput, hrest⟩⟩

theorem Ready.alike_moved (h : c.Ready cp ((s, d) :: ps)) (hsrc : c.lookup s = some m)
    {T : TableName → Option TableMeta} (hT : Alike c.lookup T) :
    Alike (c.moved s d m cp tree).lookup
      (move (TableName.key c.caseSensitive) T s d (renamed d)) := by
  obtain ⟨-, hdest, hdb⟩ := h.first
  obtain ⟨-, -, -, hlookup, -⟩ := moved_spec h.settled hsrc hdest hdb tree
  intro n
  rw [hlookup, move]
  split
  case isTrue =>
    have hs := hT s
    rw [hsrc] at hs
    obtain ⟨m', hm', hbare⟩ := Option.map_eq_some_iff.mp hs.symm
    have hrenamed : bare (c.withId d (renamed d m.copied)) = renamed d (bare m) := rfl
    rw [hm', Option.map_some, Option.map_some, Option.map_some, hrenamed, ← hbare]
    rfl
  case isFalse =>
    split
    · rfl
    · exact hT n

theorem Ready.run_spec (h : c.Ready cp ps) {c' : MetaDataCollection} (hrun : c.runPairs cp ps = .ok c')
    {T T' : TableName → Option TableMeta} (hT : Alike c.lookup T)
    (hmoves : moveAll (TableName.key c.caseSensitive) c.hasDatabase renamed T ps = some T') :
    c'.Settled cp ∧ Alike c'.lookup T' := by
  induction ps generalizing c T with
  | nil =>
    cases hrun
    cases hmoves
    exact ⟨h.settled, hT⟩
  | cons p ps ih =>
    obtain ⟨⟨m, hsrc⟩, hdest, hdb⟩ := h.first
    obtain ⟨-, tree, -, hrest⟩ := (h.runPairs_cons hsrc).mp hrun
    obtain ⟨-, hcase, -⟩ := moved_spec h.settled hsrc hdest hdb tree
    rw [moveAll] at hmoves
    split at hmoves
    case isFalse => cases hmoves
    case isTrue =>
      refine ih (h.moved hsrc) hrest (h.alike_moved hsrc hT) ?_
      rw [hcase, h.hasDatabase_moved hsrc]
      exact hmoves

/-! ## The statement -/

/-- A statement is made as the renames in turn would be, or it changes nothing if one of them cannot be
    made. -/
def InTurn (c : MetaDataCollection) (tables : RenameTable) (cp : Nat) : Prop :=
  (∀ T, c.sequential tables = some T → ∃ c' T', c.renameTable tables cp = .ok (0, c') ∧
    (∀ n : TableName, ∀ x, cp ≤ x → c'.get n.database n.table x = .ok (T' n)) ∧ Alike T' T) ∧
  (c.sequential tables = none → ∃ r, c.renameTable tables cp = .ok (r, c) ∧ r ≠ 0)

/-- A statement whose pairs pass names no table twice, and the tables can be copied and get their ids.
    One whose pairs do not pass is one that the renames in turn refuse as well. -/
def Foreseen (c : MetaDataCollection) (tables : RenameTable) : Prop :=
  (∀ ps, resolvedPairs tables.usedDb tables.tables = some ps → c.passes ps →
    (keysOf (TableName.key c.caseSensitive) ps).Nodup ∧ c.Movable ps) ∧
  ((resolvedPairs tables.usedDb tables.tables).any c.passes = false → c.sequential tables = none)

theorem renameTable_eq (hs : c.Settled cp) (hcp : cp ≤ maxCheckPoint) (t : RenameTable) :
    (c.renameTable t cp = if (resolvedPairs t.usedDb t.tables).any c.passes then
      c.runRenames t.usedDb cp t.tables >>= fun c' => .ok (0, c') else .ok (-1, c)) := by
  rw [renameTable, checkRenames_eq hs hcp, Exec.ok_bind]
  rfl

/-- `RENAME TABLE` does what the renames in turn would do if and only if no name occurs twice, or the
    list is refused in both views. -/
theorem renameTable_sequential_iff (c : MetaDataCollection) (tables : RenameTable) (cp : Nat)
    (hs : c.Settled cp) (hold : ∀ n, c.Old cp n) (hcp : cp ≤ maxCheckPoint) :
    c.InTurn tables cp ↔ c.Foreseen tables := by
  have heq := renameTable_eq hs hcp tables
  unfold InTurn Foreseen
  by_cases hany : (resolvedPairs tables.usedDb tables.tables).any c.passes
  swap
  · -- the first loop refuses the list
    rw [if_neg hany] at heq
    rw [Bool.not_eq_true] at hany
    rw [heq]
    constructor
    · rintro ⟨hsome, -⟩
      refine ⟨fun ps hps hpass => ?_, fun _ => ?_⟩
      · rw [hps, Option.any_some, hpass] at hany
        cases hany
      · cases hseq : c.sequential tables with
        | none => rfl
        | some T =>
          obtain ⟨c', T', hret, -⟩ := hsome T hseq
          cases hret
    · rintro ⟨-, hnone⟩
      refine ⟨fun T hT => ?_, fun _ => ⟨-1, rfl, by decide⟩⟩
      rw [hnone hany] at hT
      cases hT
  · obtain ⟨ps, hps, hpass⟩ := (Option.any_eq_true _ _).mp hany
    have hmove : ∀ p ∈ ps, canMove c.hasDatabase c.lookup p = true := List.all_eq_true.mp hpass
    have hseq : c.sequential tables =
        moveAll (TableName.key c.caseSensitive) c.hasDatabase renamed c.lookup ps := by
      rw [sequential, hps, Option.bind_some]
    rw [if_pos hany, runRenames_eq hps] at heq
    have hnodup := moveAll_isSome_iff (f := renamed) c.respects_lookup hmove
    rw [← hseq] at hnodup
    rw [heq, hany, hps]
    constructor
    · rintro ⟨hsome, hnone⟩
      refine ⟨fun ps' hps' _ => ?_, fun h => by cases h⟩
      cases hps'
      cases hT : c.sequential tables with
      | none =>
        obtain ⟨r, hret, hr⟩ := hnone hT
        obtain ⟨c', -, hret⟩ := Exec.of_bind hret
        cases hret
        exact absurd rfl hr
      | some T =>
        have hready : c.Ready cp ps := ⟨hs, hcp, fun p _ => ⟨hold p.1, hold p.2⟩, hmove,
          hnodup.mp (by rw [hT]; rfl)⟩
        obtain ⟨c', -, hret, -⟩ := hsome T hT
        obtain ⟨c'', hrun, -⟩ := Exec.of_bind hret
        exact ⟨hready.nodup, hready.runs_iff.mp ⟨c'', hrun⟩⟩
    · rintro ⟨hsimple, -⟩
      obtain ⟨hkeys, hmovable⟩ := hsimple ps rfl hpass
      have hready : c.Ready cp ps := ⟨hs, hcp, fun p _ => ⟨hold p.1, hold p.2⟩, hmove, hkeys⟩
      obtain ⟨c', hrun⟩ := hready.runs_iff.mpr hmovable
      refine ⟨fun T hT => ?_, fun hnone => ?_⟩
      · obtain ⟨hsettled, halike⟩ := hready.run_spec hrun (fun _ => rfl) (hseq.symm.trans hT)
        exact ⟨c', c'.lookup, by rw [hrun]; rfl, fun n x hx => hsettled.get hx n, halike⟩
      · rw [hnone] at hnodup
        cases hnodup.mpr hkeys

theorem mem_of_findName {V : Type} {caseSensitive : Bool} {name : String} {entries : List (String × V)}
    {v : V} (h : findName caseSensitive name entries = some v) : ∃ e ∈ entries, e.2 = v := by
  obtain ⟨e, hfind, heq⟩ := Option.map_eq_some_iff.mp h
  exact ⟨e, List.mem_of_find?_eq_some hfind, heq⟩

theorem settled_of_entries (hclient : c.m_client = none)
    (h : ∀ e ∈ c.m_dbs, e.2.Until cp ∧ ∀ currentDB, e.2.newest = some currentDB →
      ∀ e' ∈ currentDB.tables, e'.2.Before cp) : c.Settled cp ∧ ∀ n, c.Old cp n := by
  have hold : ∀ n, c.Old cp n := by
    intro n metas hmetas
    obtain ⟨currentDB, hcurrent, hfind⟩ := Option.bind_eq_some_iff.mp hmetas
    obtain ⟨db, hdb, hnewest⟩ := Option.bind_eq_some_iff.mp hcurrent
    obtain ⟨e, he, rfl⟩ := mem_of_findName hdb
    obtain ⟨e', he', rfl⟩ := mem_of_findName hfind
    exact (h e he).2 currentDB hnewest e' he'
  refine ⟨⟨hclient, fun name db hdb => ?_, fun n metas hmetas => (hold n metas hmetas).until⟩, hold⟩
  obtain ⟨e, he, rfl⟩ := mem_of_findName hdb
  exact (h e he).1

def twoTables : MetaDataCollection where
  m_dbs := [("d", ⟨.version (some {
    name := "d"
    tables := [
      ("a", ⟨.version (some { m_dbName := "d", m_tableName := "a", m_id := 65536 }) 20 .null, 1, 1⟩),
      ("b", ⟨.version (some { m_dbName := "d", m_tableName := "b", m_id := 131072 }) 21 .null, 2, 1⟩)] })
    10 .null, 10, 1⟩)]
  m_maxTableId := 3

theorem twoTables_settled : twoTables.Settled 30 ∧ ∀ n, twoTables.Old 30 n := by
  refine settled_of_entries rfl fun e he => ?_
  cases List.mem_singleton.mp he
  refine ⟨⟨_, _, _, rfl, by decide⟩, fun currentDB hnewest e' he' => ?_⟩
  cases hnewest
  rcases List.mem_pair.mp he' with rfl | rfl
  · exact ⟨_, _, _, rfl, by decide⟩
  · exact ⟨_, _, _, rfl, by decide⟩

def swapAB : RenameTable where
  usedDb := "d"
  tables := [(⟨"", "a"⟩, ⟨"", "t"⟩), (⟨"", "b"⟩, ⟨"", "a"⟩), (⟨"", "t"⟩, ⟨"", "b"⟩)]

def renameATwice : RenameTable where
  usedDb := "d"
  tables := [(⟨"", "a"⟩, ⟨"", "t"⟩), (⟨"", "a"⟩, ⟨"", "u"⟩)]

theorem twoTables_foreseen_iff :
    twoTables.InTurn swapAB 30 ↔ twoTables.Foreseen swapAB :=
  renameTable_sequential_iff twoTables swapAB 30 twoTables_settled.1 twoTables_settled.2 (by decide)

theorem renameTable_not_sequential :
    ((twoTables.sequential swapAB).isSome ∧
      (twoTables.renameTable swapAB 30).map Prod.fst = .ok (-1) ∧ ¬twoTables.InTurn swapAB 30) ∧
    (twoTables.sequential renameATwice).isNone ∧
      (twoTables.renameTable renameATwice 30).map Prod.fst = .ok 0 ∧
      ¬twoTables.InTurn renameATwice 30 := by
  have hswap : (twoTables.sequential swapAB).isSome ∧
      (twoTables.renameTable swapAB 30).map Prod.fst = .ok (-1) := by decide +kernel
  have htwice : (twoTables.sequential renameATwice).isNone ∧
      (twoTables.renameTable renameATwice 30).map Prod.fst = .ok 0 := by decide +kernel
  refine ⟨⟨hswap.1, hswap.2, fun h => ?_⟩, htwice.1, htwice.2, fun h => ?_⟩
  · obtain ⟨hsome, -⟩ := h
    obtain ⟨T, hT⟩ := Option.isSome_iff_exists.mp hswap.1
    obtain ⟨c', T', hret, -⟩ := hsome T hT
    rw [hret] at hswap
    cases hswap.2
  · obtain ⟨-, hnone⟩ := h
    obtain ⟨r, hret, hr⟩ := hnone (Option.isNone_iff_eq_none.mp htwice.1)
    rw [hret] at htwice
    cases htwice.2
    exact hr rfl

end MetaDataCollection

end DBStream.Native.Meta
