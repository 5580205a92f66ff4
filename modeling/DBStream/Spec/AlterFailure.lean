import DBStream.Native.MetaDataCollection

/-!
# What a failing `ALTER TABLE` leaves

A statement that fails before its new version is put has changed only its own copy.  Where the put
is refused, the timeline of the table has counted a version for it (`bump`).  No lookup by name
reads that count.  A lookup by id does, if the server answers it with a meta of that very timeline.
-/

namespace DBStream.Native.Meta

/-! ## Places -/

/-- The entry a name finds in a map. -/
def indexOfName {V : Type} (caseSensitive : Bool) (name : String) (entries : List (String × V)) :
    Option Nat :=
  entries.findIdx? fun e => nameEq caseSensitive e.1 name

section

variable {V : Type} {caseSensitive : Bool} {name : String} {entries : List (String × V)}

def modifyValue (i : Nat) (f : V → V) (entries : List (String × V)) : List (String × V) :=
  entries.modify i fun e => (e.1, f e.2)

theorem findName_cons (e : String × V) :
    findName caseSensitive name (e :: entries) =
      if nameEq caseSensitive e.1 name then some e.2 else findName caseSensitive name entries := by
  by_cases he : nameEq caseSensitive e.1 name <;> simp [findName, he]

theorem indexOfName_cons (e : String × V) :
    indexOfName caseSensitive name (e :: entries) =
      if nameEq caseSensitive e.1 name then some 0
      else (indexOfName caseSensitive name entries).map (· + 1) := by
  rw [indexOfName, List.findIdx?_cons]
  rfl

theorem findName_modifyValue (i : Nat) (f : V → V) :
    findName caseSensitive name (modifyValue i f entries) =
      (findName caseSensitive name entries).map
        (if indexOfName caseSensitive name entries = some i then f else id) := by
  induction entries generalizing i with
  | nil => simp [modifyValue, findName]
  | cons e rest ih =>
    rw [findName_cons, indexOfName_cons]
    cases i with
    | zero =>
      rw [modifyValue, List.modify_zero_cons, findName_cons]
      by_cases he : nameEq caseSensitive e.1 name <;> simp [he]
    | succ i =>
      have := ih i
      rw [modifyValue] at this
      rw [modifyValue, List.modify_succ_cons, findName_cons, this]
      by_cases he : nameEq caseSensitive e.1 name <;> simp [he]

theorem setName_eq {v : V} (h : findName caseSensitive name entries = some v) :
    ∃ i, indexOfName caseSensitive name entries = some i ∧
      ∀ f : V → V, setName caseSensitive name (f v) entries = modifyValue i f entries := by
  induction entries with
  | nil => cases h
  | cons e rest ih =>
    rw [findName_cons] at h
    rw [indexOfName_cons]
    by_cases he : nameEq caseSensitive e.1 name
    · rw [if_pos he] at h
      cases h
      exact ⟨0, if_pos he, fun f => by simp [setName, modifyValue, he]⟩
    · rw [if_neg he] at h ⊢
      obtain ⟨i, hi, hset⟩ := ih h
      refine ⟨i + 1, by rw [hi]; rfl, fun f => ?_⟩
      simp only [modifyValue] at hset ⊢
      rw [setName, if_neg he, hset, List.modify_succ_cons]

end

/-! ## Versions -/

namespace MetaInfo

variable {T : Type}

/-- Change the meta of a version, counted from the newest. -/
def modifyVersion (f : T → T) : Nat → MetaInfo T → MetaInfo T
  | _, null => null
  | _, freed => freed
  | 0, version m startPos prev => version (m.map f) startPos prev
  | j + 1, version m startPos prev => version m startPos (modifyVersion f j prev)

/-- The version `findBefore` reads. -/
def indexBefore (cp : Nat) : MetaInfo T → Option Nat
  | null => none
  | freed => none
  | version _ startPos prev =>
    if startPos < cp then some 0 else (indexBefore cp prev).map (· + 1)

private theorem findBefore_modifyVersion (f : T → T) (j cp : Nat) (m : MetaInfo T) :
    (m.modifyVersion f j).findBefore cp =
      (m.findBefore cp).map (Option.map (if m.indexBefore cp = some j then f else id)) := by
  induction m generalizing j with
  | null => simp [modifyVersion, findBefore, Except.map]
  | freed => simp [modifyVersion, findBefore, Except.map]
  | version m startPos prev ih =>
    cases j with
    | zero =>
      by_cases hlt : startPos < cp
      · simp [modifyVersion, findBefore, indexBefore, hlt, Except.map]
      · simp [modifyVersion, findBefore, indexBefore, hlt]
    | succ j =>
      by_cases hlt : startPos < cp
      · simp [modifyVersion, findBefore, indexBefore, hlt, Except.map]
      · simp [modifyVersion, findBefore, indexBefore, hlt, ih]

theorem replaceBefore_eq {cp : Nat} {v : T} {m : MetaInfo T} (h : m.findBefore cp = .ok (some v)) :
    ∃ j, m.indexBefore cp = some j ∧ ∀ f, m.replaceBefore cp (f v) = m.modifyVersion f j := by
  induction m with
  | null => cases h
  | freed => cases h
  | version m startPos prev ih =>
    simp only [findBefore] at h
    by_cases hlt : startPos < cp
    · rw [if_pos hlt] at h
      cases h
      exact ⟨0, by simp [indexBefore, hlt], fun f => by simp [replaceBefore, modifyVersion, hlt]⟩
    · rw [if_neg hlt] at h
      obtain ⟨j, hj, hreplace⟩ := ih h
      exact ⟨j + 1, by simp [indexBefore, hlt, hj], fun f => by
        simp [replaceBefore, modifyVersion, hlt, hreplace]⟩

end MetaInfo

namespace MetaTimeline

variable {T : Type} (t : MetaTimeline T)

/-- Change the meta of a version, counted from the newest. -/
def modifyVersion (j : Nat) (f : T → T) : MetaTimeline T :=
  { t with m_current := t.m_current.modifyVersion f j }

def indexAt (cp : Nat) : Option Nat :=
  match t.m_current with
  | .version _ startPos prev =>
    if startPos ≤ cp then some 0 else (prev.indexBefore cp).map (· + 1)
  | _ => none

theorem get_modifyVersion (j : Nat) (f : T → T) (cp : Nat) :
    (t.modifyVersion j f).get cp =
      (t.get cp).map (Option.map (if t.indexAt cp = some j then f else id)) := by
  obtain ⟨current, id, version⟩ := t
  cases current with
  | null => simp [modifyVersion, MetaInfo.modifyVersion, get, Except.map]
  | freed => simp [modifyVersion, MetaInfo.modifyVersion, get, Except.map]
  | version m startPos prev =>
    cases j with
    | zero =>
      by_cases hle : startPos ≤ cp
      · simp [modifyVersion, get, indexAt, MetaInfo.modifyVersion, hle, Except.map]
      · simp [modifyVersion, get, indexAt, MetaInfo.modifyVersion, hle]
    | succ j =>
      by_cases hle : startPos ≤ cp
      · simp [modifyVersion, get, indexAt, MetaInfo.modifyVersion, hle, Except.map]
      · simp [modifyVersion, get, indexAt, MetaInfo.modifyVersion, hle,
          MetaInfo.findBefore_modifyVersion]

theorem replaceAt_eq {t : MetaTimeline T} {cp : Nat} {v : T} (h : t.get cp = .ok (some v)) :
    ∃ j, t.indexAt cp = some j ∧ ∀ f, t.replaceAt cp (f v) = t.modifyVersion j f := by
  obtain ⟨current, id, version⟩ := t
  cases current with
  | null => cases h
  | freed => cases h
  | version m startPos prev =>
    simp only [get] at h
    by_cases hle : startPos ≤ cp
    · rw [if_pos hle] at h
      cases h
      exact ⟨0, by simp [indexAt, hle], fun f => by
        simp [replaceAt, modifyVersion, MetaInfo.modifyVersion, hle]⟩
    · rw [if_neg hle] at h
      obtain ⟨j, hj, hreplace⟩ := MetaInfo.replaceBefore_eq h
      exact ⟨j + 1, by simp [indexAt, hle, hj], fun f => by
        simp [replaceAt, modifyVersion, MetaInfo.modifyVersion, hle, hreplace]⟩

theorem link_modifyVersion {t t' : MetaTimeline T} {m m' : Option T} {cp : Nat} {r : Int} (j : Nat)
    (f : T → T) (h : t.link m cp = .ok (r, m', t')) :
    ∃ t'', (t.modifyVersion j f).link m cp = .ok (r, m', t'') := by
  obtain ⟨current, id, version⟩ := t
  cases current with
  | null =>
    cases h
    exact ⟨_, by simp only [modifyVersion, MetaInfo.modifyVersion, link]; rfl⟩
  | freed => cases h
  | version v startPos prev =>
    obtain ⟨v', prev', hshape⟩ : ∃ v' prev',
        (MetaInfo.version v startPos prev).modifyVersion f j = .version v' startPos prev' := by
      cases j with
      | zero => exact ⟨_, _, rfl⟩
      | succ j => exact ⟨_, _, rfl⟩
    simp only [link, modifyVersion, hshape] at h ⊢
    by_cases hle : cp ≤ startPos
    · rw [if_pos hle] at h ⊢
      cases h
      exact ⟨_, rfl⟩
    · rw [if_neg hle] at h ⊢
      cases h
      exact ⟨_, rfl⟩

private theorem put_modifyVersion [HasMetaId T] {t t' : MetaTimeline T} {m m' : Option T} {cp : Nat}
    {r : Int} (j : Nat) (f : T → T) (h : t.put m cp = .ok (r, m', t')) :
    ∃ t'', (t.modifyVersion j f).put m cp = .ok (r, m', t'') := by
  cases m with
  | none => exact link_modifyVersion j f h
  | some m => exact link_modifyVersion j f h

/-- The timeline after a put it has refused. -/
def countVersion (t : MetaTimeline T) : MetaTimeline T :=
  { t with m_version := (t.m_version + 1) % 2 ^ 16 }

theorem get_countVersion (cp : Nat) : t.countVersion.get cp = t.get cp := rfl

private theorem put_refused [HasMetaId T] {t t' : MetaTimeline T} {m : T} {m' : Option T} {cp : Nat}
    {r : Int} (h : t.put (some m) cp = .ok (r, m', t')) (hr : r ≠ 0) : t' = t.countVersion := by
  simp only [put, assignId, link] at h
  split at h
  · cases h
    exact absurd rfl hr
  · cases h
  · split at h
    · cases h
      rfl
    · cases h
      exact absurd rfl hr

end MetaTimeline

/-! ## Places in the collection -/

/-- The timeline of a table: the database, its version, and the table there. -/
structure Place where
  database : Nat
  version : Nat
  table : Nat
  deriving DecidableEq

/-- One more version of a table is counted. -/
def DbInfo.countVersion (k : Nat) (currentDB : DbInfo) : DbInfo :=
  { currentDB with tables := modifyValue k MetaTimeline.countVersion currentDB.tables }

namespace MetaDataCollection

variable (c : MetaDataCollection) {c' : MetaDataCollection} {database table : String} {cp : Nat}

/-- The timeline that a table has at a checkpoint. -/
def timelineAt (database table : String) (cp : Nat) : Exec (Option (MetaTimeline TableMeta)) :=
  match findName c.caseSensitive database c.m_dbs with
  | none => .ok none
  | some db => (db.get cp).map fun currentDB =>
    currentDB.bind fun currentDB => findName c.caseSensitive table currentDB.tables

def place (database table : String) (cp : Nat) : Option Place := do
  let i ← indexOfName c.caseSensitive database c.m_dbs
  let db ← findName c.caseSensitive database c.m_dbs
  let j ← db.indexAt cp
  match db.get cp with
  | .ok (some currentDB) => do
    let k ← indexOfName c.caseSensitive table currentDB.tables
    return ⟨i, j, k⟩
  | _ => none

/-- One more version is counted at a place. -/
def countVersion (l : Place) : MetaDataCollection :=
  { c with m_dbs := modifyValue l.database (fun db => db.modifyVersion l.version fun currentDB =>
      currentDB.countVersion l.table) c.m_dbs }

theorem findName_countVersion (l : Place) (database : String) :
    findName (c.countVersion l).caseSensitive database (c.countVersion l).m_dbs =
      (findName c.caseSensitive database c.m_dbs).map
        (if indexOfName c.caseSensitive database c.m_dbs = some l.database then
          fun db => db.modifyVersion l.version fun currentDB => currentDB.countVersion l.table
        else id) := by
  rw [← findName_modifyValue]
  rfl

theorem get_eq (database table : String) (cp : Nat) :
    c.get database table cp = c.timelineAt database table cp >>= fun
      | none => .ok none
      | some metas => metas.get cp := by
  unfold get timelineAt
  cases findName c.caseSensitive database c.m_dbs with
  | none => rfl
  | some db =>
    dsimp only
    cases db.get cp with
    | error e => rfl
    | ok currentDB =>
      cases currentDB with
      | none => rfl
      | some currentDB =>
        cases findName c.caseSensitive table currentDB.tables with
        | none => rfl
        | some metas => rfl

theorem place_eq_some {l : Place} :
    c.place database table cp = some l ↔
      indexOfName c.caseSensitive database c.m_dbs = some l.database ∧
        ∃ db, findName c.caseSensitive database c.m_dbs = some db ∧ db.indexAt cp = some l.version ∧
          ∃ currentDB, db.get cp = .ok (some currentDB) ∧
            indexOfName c.caseSensitive table currentDB.tables = some l.table := by
  obtain ⟨i, j, k⟩ := l
  simp only [place, Option.bind_eq_bind, Option.bind_eq_some_iff]
  constructor
  · rintro ⟨i', hi, db, hdb, j', hj, hrest⟩
    split at hrest
    · rename_i currentDB hget
      obtain ⟨k', hk, heq⟩ := Option.bind_eq_some_iff.mp hrest
      cases heq
      exact ⟨hi, db, hdb, hj, currentDB, hget, hk⟩
    · cases hrest
  · rintro ⟨hi, db, hdb, hj, currentDB, hget, hk⟩
    exact ⟨i, hi, db, hdb, j, hj, by simp [hget, hk]⟩

/-- Counting a version at one place shows at this place only. -/
theorem timelineAt_countVersion (l : Place) (database table : String) (cp : Nat) :
    (c.countVersion l).timelineAt database table cp =
      (c.timelineAt database table cp).map (Option.map
        (if c.place database table cp = some l then MetaTimeline.countVersion else id)) := by
  have hplace : c.place database table cp = some l ↔
      indexOfName c.caseSensitive database c.m_dbs = some l.database ∧
        ∃ db, findName c.caseSensitive database c.m_dbs = some db ∧ db.indexAt cp = some l.version ∧
          ∃ currentDB, db.get cp = .ok (some currentDB) ∧
            indexOfName c.caseSensitive table currentDB.tables = some l.table := c.place_eq_some
  unfold timelineAt
  rw [findName_countVersion]
  cases hfind : findName c.caseSensitive database c.m_dbs with
  | none => simp [Except.map]
  | some db =>
    rw [hfind] at hplace
    simp only [Option.map_some, Option.some.injEq, exists_eq_left'] at hplace ⊢
    by_cases hi : indexOfName c.caseSensitive database c.m_dbs = some l.database
    · rw [if_pos hi, MetaTimeline.get_modifyVersion]
      cases hget : db.get cp with
      | error e => simp [Except.map]
      | ok currentDB =>
        cases currentDB with
        | none => simp [Except.map]
        | some currentDB =>
          simp only [hi, hget, true_and, Except.ok.injEq, Option.some.injEq, exists_eq_left']
            at hplace
          simp only [Except.map, Option.map_some, Option.bind_some, Except.ok.injEq]
          by_cases hj : db.indexAt cp = some l.version
          · rw [if_pos hj]
            dsimp only [DbInfo.countVersion, countVersion]
            rw [findName_modifyValue]
            simp only [hj, true_and] at hplace
            simp only [hplace]
          · rw [if_neg hj, if_neg fun h => hj (hplace.mp h).1, Option.map_id, id_eq, id_eq]
            rfl
    · rw [if_neg hi, if_neg fun h => hi (hplace.mp h).1]
      simp only [id_eq, Option.map_id]
      cases db.get cp <;> rfl

/-! ## A put that fails -/

variable {c}

theorem place_none_of_findName (h : findName c.caseSensitive database c.m_dbs = none) :
    c.place database table cp = none := by
  cases hp : c.place database table cp with
  | none => rfl
  | some l =>
    obtain ⟨_, db, hdb, _⟩ := c.place_eq_some.mp hp
    rw [h] at hdb
    cases hdb

theorem putIn_failed {currentDB db' : DbInfo} {m : TableMeta} {m' : Option TableMeta} {r : Int}
    {id : Nat} (h : c.putIn currentDB table (some m) cp = .ok (r, m', db', id)) (hr : r ≠ 0) :
    id = c.m_maxTableId ∧ ∃ metas, findName c.caseSensitive table currentDB.tables = some metas ∧
      db' = { currentDB with
        tables := setName c.caseSensitive table metas.countVersion currentDB.tables } := by
  unfold putIn at h
  cases hfind : findName c.caseSensitive table currentDB.tables with
  | none =>
    rw [hfind] at h
    obtain ⟨⟨_, _, _⟩, _, hret⟩ := Exec.of_bind h
    cases hret
    exact absurd rfl hr
  | some metas =>
    rw [hfind] at h
    obtain ⟨⟨r', m'', metas'⟩, hput, hret⟩ := Exec.of_bind h
    cases hret
    have hr' : r' ≠ 0 := fun h => hr (by simp [h])
    rw [MetaTimeline.put_refused hput hr']
    exact ⟨rfl, metas, rfl, rfl⟩

/-- A `put` that is refused has at most taken a version number. -/
theorem put_failed {m : TableMeta} {m' : Option TableMeta} {r : Int}
    (h : c.put database table (some m) cp = .ok (r, m', c')) (hr : r ≠ 0) :
    c' = match c.place database table cp with
      | some l => c.countVersion l
      | none => c := by
  unfold put at h
  cases hfind : findName c.caseSensitive database c.m_dbs with
  | none =>
    rw [place_none_of_findName hfind]
    rw [hfind] at h
    dsimp only at h
    split at h
    · cases h
      rfl
    · -- a database that comes from the server has no timeline that could refuse
      obtain ⟨⟨_, _, _, _⟩, _, h⟩ := Exec.of_bind h
      obtain ⟨⟨_, _⟩, _, h⟩ := Exec.of_bind h
      obtain ⟨_, _, h⟩ := Exec.of_bind h
      cases h
      exact absurd rfl hr
  | some db =>
    rw [hfind] at h
    obtain ⟨currentDB, hget, h⟩ := Exec.of_bind h
    cases currentDB with
    | none => cases h
    | some currentDB =>
      obtain ⟨⟨r', m'', db', id⟩, hputIn, h⟩ := Exec.of_bind h
      dsimp only at h
      split at h
      · rename_i hr'
        cases h
        obtain ⟨rfl, metas, hmetas, rfl⟩ := putIn_failed hputIn hr'
        obtain ⟨i, hi, hset⟩ := setName_eq hfind
        obtain ⟨j, hj, hreplace⟩ := MetaTimeline.replaceAt_eq hget
        obtain ⟨k, hk, hsetTable⟩ := setName_eq hmetas
        have hplace : c.place database table cp = some ⟨i, j, k⟩ :=
          c.place_eq_some.mpr ⟨hi, db, hfind, hj, currentDB, hget, hk⟩
        rw [hplace]
        have hone := hreplace fun currentDB => currentDB.countVersion k
        rw [DbInfo.countVersion, ← hsetTable] at hone
        dsimp only [countVersion]
        rw [hone, hset fun db => db.modifyVersion j _]
      · obtain ⟨_, _, h⟩ := Exec.of_bind h
        cases h
        exact absurd rfl hr

/-! ## A put behind it -/

variable {l : Place} {m : TableMeta} {m' : Option TableMeta} {r : Int}

theorem putIn_congr {db₁ db₂ db' : DbInfo} {id : Nat}
    (hfind : findName c.caseSensitive table db₂.tables = findName c.caseSensitive table db₁.tables)
    (h : c.putIn db₁ table (some m) cp = .ok (r, m', db', id)) :
    ∃ db'', c.putIn db₂ table (some m) cp = .ok (r, m', db'', id) := by
  unfold putIn at h ⊢
  rw [hfind]
  cases hfind₁ : findName c.caseSensitive table db₁.tables with
  | none =>
    rw [hfind₁] at h
    obtain ⟨⟨_, _, _⟩, hput, hret⟩ := Exec.of_bind h
    cases hret
    exact ⟨_, by dsimp only; rw [hput]; rfl⟩
  | some metas =>
    rw [hfind₁] at h
    obtain ⟨⟨_, _, _⟩, hput, hret⟩ := Exec.of_bind h
    cases hret
    exact ⟨_, by dsimp only; rw [hput]; rfl⟩

theorem addTable_congr {c₁ c₂ : MetaDataCollection} {m : Option TableMeta}
    (htree : c₂.m_allTables = c₁.m_allTables) (h : c₁.addTable m = .ok c') :
    ∃ c'', c₂.addTable m = .ok c'' := by
  unfold addTable at h ⊢
  cases m with
  | none => exact ⟨_, rfl⟩
  | some m =>
    obtain ⟨tree, hput, _⟩ := Exec.of_bind h
    exact ⟨_, by dsimp only; rw [htree, hput]; rfl⟩

theorem putDatabase_countVersion {name : String} {db : DbInfo}
    (h : c.putDatabase name cp db = .ok (r, c')) :
    ∃ c'', (c.countVersion l).putDatabase name cp db = .ok (r, c'') ∧
      c''.m_allTables = c'.m_allTables := by
  unfold putDatabase at h ⊢
  have hfind' := c.findName_countVersion l name
  cases hfind : findName c.caseSensitive name c.m_dbs with
  | none =>
    rw [hfind] at h hfind'
    obtain ⟨⟨_, _, t⟩, hput, hret⟩ := Exec.of_bind h
    cases hret
    refine ⟨{ c.countVersion l with m_dbs := (c.countVersion l).m_dbs ++ [(name, t)] }, ?_, rfl⟩
    rw [hfind', Option.map_none]
    rw [hput]
    rfl
  | some t =>
    rw [hfind] at h hfind'
    obtain ⟨⟨r', m'', t'⟩, hput, hret⟩ := Exec.of_bind h
    cases hret
    -- the timeline of the database has the same starts
    have hput' : ∃ t₂ t'', findName (c.countVersion l).caseSensitive name (c.countVersion l).m_dbs =
        some t₂ ∧ t₂.put (some db) cp = .ok (r', m'', t'') := by
      rw [hfind', Option.map_some]
      split
      · obtain ⟨t'', hput'⟩ := MetaTimeline.put_modifyVersion l.version
          (fun currentDB : DbInfo => currentDB.countVersion l.table) hput
        exact ⟨_, t'', rfl, hput'⟩
      · exact ⟨_, t', rfl, hput⟩
    obtain ⟨t₂, t'', ht₂, hput'⟩ := hput'
    refine ⟨{ c.countVersion l with
      m_dbs := setName c.caseSensitive name t'' (c.countVersion l).m_dbs }, ?_, rfl⟩
    rw [ht₂]
    dsimp only
    rw [hput']
    rfl

/-- A version number that was taken elsewhere does not change whether `put` goes through. -/
theorem put_countVersion (h : c.put database table (some m) cp = .ok (r, m', c'))
    (hplace : c.place database table cp ≠ some l) :
    ∃ r' c'', (c.countVersion l).put database table (some m) cp = .ok (r', m', c'') := by
  have htimeline := c.timelineAt_countVersion l database table cp
  rw [if_neg hplace] at htimeline
  have hfind' := c.findName_countVersion l database
  unfold put at h ⊢
  unfold timelineAt at htimeline
  cases hfind : findName c.caseSensitive database c.m_dbs with
  | none =>
    rw [hfind] at h hfind'
    rw [hfind']
    dsimp only [Option.map_none] at h ⊢
    cases hask : c.m_client.bind fun client => client.askDatabaseMeta database cp with
    | none =>
      rw [hask] at h
      cases h
      exact ⟨-1, c.countVersion l, by simp [countVersion, hask]⟩
    | some answer =>
      rw [hask] at h
      obtain ⟨⟨r₁, m₁, db', id⟩, hputIn, h⟩ := Exec.of_bind h
      obtain ⟨⟨r₂, c₁⟩, hputDb, h⟩ := Exec.of_bind h
      obtain ⟨c₂, hadd, h⟩ := Exec.of_bind h
      cases h
      obtain ⟨c₃, hputDb', htree⟩ := putDatabase_countVersion (l := l) hputDb
      have htree' : ({ c₃ with m_maxTableId := id } : MetaDataCollection).m_allTables =
          ({ c₁ with m_maxTableId := id } : MetaDataCollection).m_allTables := htree
      obtain ⟨c₄, hadd'⟩ := addTable_congr htree' hadd
      have hask' : (c.countVersion l).m_client.bind
          (fun client => client.askDatabaseMeta database cp) = some answer := hask
      have hputIn' : (c.countVersion l).putIn { answer.1 with tables := [] } table (some m) cp =
          .ok (r₁, m₁, db', id) := hputIn
      refine ⟨0, c₄, ?_⟩
      rw [hask']
      dsimp only
      rw [hputIn', Exec.ok_bind]
      rw [hputDb', Exec.ok_bind]
      rw [hadd']
      rfl
  | some db =>
    rw [hfind] at h htimeline hfind'
    obtain ⟨currentDB, hget, h⟩ := Exec.of_bind h
    cases currentDB with
    | none => cases h
    | some currentDB =>
      obtain ⟨⟨r₁, m₁, db₁, id⟩, hputIn, h⟩ := Exec.of_bind h
      -- the database that is read has the timeline of the table unchanged
      obtain ⟨db', currentDB', hdb', hget'⟩ : ∃ db' currentDB',
          findName (c.countVersion l).caseSensitive database (c.countVersion l).m_dbs = some db' ∧
            db'.get cp = .ok (some currentDB') := by
        rw [hfind', Option.map_some]
        split
        · exact ⟨_, _, rfl, by rw [MetaTimeline.get_modifyVersion, hget]; rfl⟩
        · exact ⟨_, _, rfl, hget⟩
      rw [hdb'] at htimeline
      dsimp only at htimeline
      rw [hget, hget', Option.map_id] at htimeline
      obtain ⟨db₂, hputIn'⟩ := putIn_congr (Except.ok.inj htimeline) hputIn
      rw [hdb']
      dsimp only at h ⊢
      rw [hget', Exec.ok_bind]
      dsimp only
      rw [hputIn', Exec.ok_bind]
      by_cases hr : r₁ ≠ 0
      · rw [if_pos hr] at h ⊢
        cases h
        exact ⟨_, _, rfl⟩
      · rw [if_neg hr] at h ⊢
        obtain ⟨c₁, hadd, h⟩ := Exec.of_bind h
        cases h
        have htree : ({ c.countVersion l with
            m_dbs := setName (c.countVersion l).caseSensitive database (db'.replaceAt cp db₂)
              (c.countVersion l).m_dbs
            m_maxTableId := id } : MetaDataCollection).m_allTables =
          ({ c with
            m_dbs := setName c.caseSensitive database (db.replaceAt cp db₁) c.m_dbs
            m_maxTableId := id } : MetaDataCollection).m_allTables := rfl
        obtain ⟨c₂, hadd'⟩ := addTable_congr htree hadd
        exact ⟨0, c₂, by rw [hadd']; rfl⟩

/-- A new version of a table has the id of its timeline. -/
theorem put_id_of_timelineAt {metas : MetaTimeline TableMeta}
    (h : c.put database table (some m) cp = .ok (r, m', c'))
    (hmetas : c.timelineAt database table cp = .ok (some metas)) :
    m' = some (setId m (genTableId metas.m_id metas.m_version)) := by
  unfold put at h
  unfold timelineAt at hmetas
  cases hfind : findName c.caseSensitive database c.m_dbs with
  | none =>
    rw [hfind] at hmetas
    cases hmetas
  | some db =>
    rw [hfind] at h hmetas
    dsimp only at h hmetas
    obtain ⟨currentDB, hget, h⟩ := Exec.of_bind h
    rw [hget] at hmetas
    cases currentDB with
    | none => cases h
    | some currentDB =>
      have hfindTable : findName c.caseSensitive table currentDB.tables = some metas :=
        Except.ok.inj hmetas
      obtain ⟨⟨r₁, m₁, db₁, id⟩, hputIn, h⟩ := Exec.of_bind h
      have hm₁ : m₁ = some (setId m (genTableId metas.m_id metas.m_version)) := by
        unfold putIn at hputIn
        rw [hfindTable] at hputIn
        obtain ⟨⟨r₂, m₂, metas'⟩, hput, hret⟩ := Exec.of_bind hputIn
        cases hret
        simp only [MetaTimeline.put, MetaTimeline.assignId, MetaTimeline.link] at hput
        split at hput
        · cases hput
          rfl
        · cases hput
        · split at hput
          · cases hput
            rfl
          · cases hput
            rfl
      split at h
      · cases h
        exact hm₁
      · obtain ⟨_, _, h⟩ := Exec.of_bind h
        cases h
        exact hm₁

end MetaDataCollection

theorem genTableId_succ_ne (n v : Nat) : genTableId n v ≠ genTableId n ((v + 1) % 2 ^ 16) := by
  intro h
  have hlow : ∀ v, genTableId n v % 2 ^ 16 = v % 2 ^ 16 := by
    intro v
    have hzero : (n <<< 16) % 2 ^ 64 % 2 ^ 16 = 0 := by
      omega
    rw [genTableId, Nat.or_mod_two_pow, hzero, Nat.zero_or]
  have hmod := congrArg (· % 2 ^ 16) h
  simp only [hlow] at hmod
  omega

/-! ## `alterTable` -/

namespace MetaDataCollection

variable {c c' : MetaDataCollection} {a : AlterTable} {cp : Nat} {r : Int}

/-- The new version that a statement makes, if each of its sub-commands can be applied. -/
def newVersionOf (c : MetaDataCollection) (a : AlterTable) (cp : Nat) : Option TableMeta := do
  let database ← a.getDatabase
  match c.get database a.table cp with
  | .ok (some tableMeta) =>
    match tableMeta.copy with
    | .ok newVersion =>
      match c.applyCommands a database cp newVersion false a.detail with
      | .ok (ret, newVersion, _) => if ret = 0 then some newVersion else none
      | .error _ => none
    | .error _ => none
  | _ => none

/-- The place at which a statement that fails has been refused, if its new version could be made and
    its table is there. -/
def refusedAt (c : MetaDataCollection) (a : AlterTable) (cp : Nat) : Option Place := do
  let newVersion ← c.newVersionOf a cp
  c.place newVersion.m_dbName newVersion.m_tableName cp

/-- What a refused statement leaves behind is the version number it has taken. -/
theorem alterTable_failed (h : c.alterTable a cp = .ok (r, c')) (hr : r ≠ 0) :
    c' = match c.refusedAt a cp with
      | some l => c.countVersion l
      | none => c := by
  unfold alterTable at h
  cases hdatabase : a.getDatabase with
  | none =>
    rw [hdatabase] at h
    cases h
    simp [refusedAt, newVersionOf, hdatabase]
  | some database =>
    rw [hdatabase] at h
    obtain ⟨tableMeta, hget, h⟩ := Exec.of_bind h
    cases tableMeta with
    | none =>
      cases h
      simp [refusedAt, newVersionOf, hdatabase, hget]
    | some tableMeta =>
      obtain ⟨copied, hcopy, h⟩ := Exec.of_bind h
      obtain ⟨⟨ret, newVersion, renameTable⟩, happly, h⟩ := Exec.of_bind h
      have hrefused : c.refusedAt a cp =
          if ret = 0 then c.place newVersion.m_dbName newVersion.m_tableName cp else none := by
        simp only [refusedAt, newVersionOf, hdatabase, Option.bind_eq_bind, Option.bind_some, hget,
          hcopy, happly]
        split <;> rfl
      dsimp only at h
      by_cases hret : ret ≠ 0
      · rw [if_pos hret] at h
        cases h
        rw [hrefused, if_neg hret]
      · rw [if_neg hret] at h
        rw [hrefused, if_pos (not_not.mp hret)]
        obtain ⟨⟨r', m', c₁⟩, hput, h⟩ := Exec.of_bind h
        by_cases hr' : r' ≠ 0
        · rw [if_pos hr'] at h
          obtain ⟨_, _, h⟩ := Exec.of_bind h
          cases h
          exact put_failed hput hr'
        · -- the statement has succeeded
          rw [if_neg hr'] at h
          split at h
          · obtain ⟨⟨_, _⟩, _, h⟩ := Exec.of_bind h
            cases h
            exact absurd rfl hr
          · cases h
            exact absurd rfl hr

theorem get_countVersion (c : MetaDataCollection) (l : Place) (database table : String) (x : Nat) :
    (c.countVersion l).get database table x = c.get database table x := by
  rw [get_eq, get_eq, timelineAt_countVersion]
  cases c.timelineAt database table x with
  | error e => rfl
  | ok metas =>
    cases metas with
    | none => rfl
    | some metas =>
      split
      · exact metas.get_countVersion x
      · rfl

/-- `get` with an id that the tree does not have, and that the server answers with a meta. -/
structure Fetches (c : MetaDataCollection) (id : Nat) (reply : TableMeta) (logOffset : Nat) : Prop where
  unknown : c.m_allTables.get id = .ok none
  asked : (c.m_client.bind fun client => client.askTableMeta id) = some (reply, logOffset)
  returns : ∃ answer, c.getById id = .ok answer

theorem getById_fetched {id logOffset : Nat} {reply : TableMeta}
    (hunknown : c.m_allTables.get id = .ok none)
    (hasked : (c.m_client.bind fun client => client.askTableMeta id) = some (reply, logOffset)) :
    c.getById id = c.put reply.m_dbName reply.m_tableName (some reply) logOffset >>= fun p =>
      .ok p.2 := by
  unfold getById
  rw [hunknown, Exec.ok_bind]
  rw [hasked]
  rfl

theorem exists_timelineAt {database table : String} {x : Nat} {l : Place}
    (h : c.place database table x = some l) :
    ∃ metas, c.timelineAt database table x = .ok (some metas) := by
  obtain ⟨_, db, hdb, _, currentDB, hget, hk⟩ := c.place_eq_some.mp h
  have hfind : ∃ metas, findName c.caseSensitive table currentDB.tables = some metas := by
    rw [← Option.isSome_iff_exists, findName, Option.isSome_map, List.find?_isSome]
    obtain ⟨hlt, hk, _⟩ := List.findIdx?_eq_some_iff_getElem.mp hk
    exact ⟨_, List.getElem_mem hlt, hk⟩
  obtain ⟨metas, hmetas⟩ := hfind
  exact ⟨metas, by simp [timelineAt, hdb, hget, Except.map, hmetas]⟩

/-- After a statement that fails every lookup by name answers as before, and every lookup by id that
    returned answers as before exactly when none of them is answered by the server with a meta of
    the timeline that refused the statement. -/
theorem alterTable_failed_iff (h : c.alterTable a cp = .ok (r, c')) (hr : r ≠ 0) :
    ((∀ database table x, c'.get database table x = c.get database table x) ∧
      ∀ id m c₁, c.getById id = .ok (m, c₁) → ∃ c₂, c'.getById id = .ok (m, c₂)) ↔
    ∀ id reply logOffset l, c.Fetches id reply logOffset → c.refusedAt a cp = some l →
      c.place reply.m_dbName reply.m_tableName logOffset ≠ some l := by
  have hfailed := alterTable_failed h hr
  cases hrefused : c.refusedAt a cp with
  | none =>
    rw [hrefused] at hfailed
    subst hfailed
    refine iff_of_true ⟨fun _ _ _ => rfl, fun _ _ c₁ h => ⟨c₁, h⟩⟩ ?_
    intro _ _ _ _ _ h
    cases h
  | some l =>
    rw [hrefused] at hfailed
    subst hfailed
    simp only [get_countVersion, implies_true, true_and, Option.some.injEq]
    constructor
    · -- the same id would be given out for two versions
      rintro hsame id reply logOffset _ ⟨hunknown, hasked, ⟨m, c₁⟩, hget⟩ rfl hplace
      obtain ⟨c₂, hget'⟩ := hsame id m c₁ hget
      obtain ⟨metas, hmetas⟩ := exists_timelineAt hplace
      have hmetas' := c.timelineAt_countVersion l reply.m_dbName reply.m_tableName logOffset
      rw [if_pos hplace, hmetas] at hmetas'
      rw [getById_fetched hunknown hasked] at hget
      rw [getById_fetched (c := c.countVersion l) hunknown hasked] at hget'
      obtain ⟨⟨r₁, m₁, c₃⟩, hput, heq⟩ := Exec.of_bind hget
      obtain ⟨⟨r₂, m₂, c₄⟩, hput', heq'⟩ := Exec.of_bind hget'
      cases heq
      cases heq'
      have hid := put_id_of_timelineAt hput hmetas
      rw [put_id_of_timelineAt hput' hmetas', Option.some.injEq] at hid
      have hid := congrArg m_id hid
      exact genTableId_succ_ne _ _ hid.symm
    · intro hplaces id m c₁ hget
      obtain ⟨known, hknown, hrest⟩ := Exec.of_bind hget
      have hknown' : (c.countVersion l).m_allTables.get id = .ok known := hknown
      cases known with
      | some m' =>
        cases hrest
        refine ⟨c.countVersion l, ?_⟩
        rw [getById, hknown']
        rfl
      | none =>
        cases hasked : c.m_client.bind fun client => client.askTableMeta id with
        | none =>
          rw [hasked] at hrest
          cases hrest
          refine ⟨c.countVersion l, ?_⟩
          rw [getById, hknown', Exec.ok_bind]
          simp [countVersion, hasked]
        | some answer =>
          obtain ⟨reply, logOffset⟩ := answer
          have hplace := hplaces id reply logOffset l ⟨hknown, hasked, _, hget⟩ rfl
          have hasked' : ((c.countVersion l).m_client.bind fun client => client.askTableMeta id) =
              some (reply, logOffset) := hasked
          change c.getById id = .ok (m, c₁) at hget
          rw [getById_fetched hknown hasked] at hget
          obtain ⟨⟨r₁, m₁, c₃⟩, hput, heq⟩ := Exec.of_bind hget
          cases heq
          obtain ⟨r₂, c₄, hput'⟩ := put_countVersion hput hplace
          exact ⟨c₄, by rw [getById_fetched hknown' hasked', hput']; rfl⟩

end MetaDataCollection

/-- A table that was put at 20, and a server that knows a later version of it. -/
def remoteTable (m_client : Option RemoteClient) : MetaDataCollection where
  m_dbs := [("d", ⟨.version (some {
    name := "d"
    tables := [("t", ⟨.version (some { m_dbName := "d", m_tableName := "t", m_id := 65536 }) 20 .null,
      1, 1⟩)] }) 10 .null, 10, 1⟩)]
  m_client := m_client
  m_maxTableId := 2

def laterTable : RemoteClient where
  askTableMeta _ := some ({ m_dbName := "d", m_tableName := "t" }, 30)
  askDatabaseMeta _ _ := none

def addColumnC : AlterTable where
  usedDb := "d"
  database := ""
  table := "t"
  detail := [.addColumn { m_columnType := .T_INT32, m_columnName := "c" } false ""]

theorem alterTable_remoteTable (client : Option RemoteClient) :
    (remoteTable client).alterTable addColumnC 20 =
      .ok (-1, (remoteTable client).countVersion ⟨0, 0, 0⟩) := by
  rfl

theorem alterTable_failed_iff_remote :
    ((∀ database table x, ((remoteTable none).countVersion ⟨0, 0, 0⟩).get database table x =
        (remoteTable none).get database table x) ∧
      ∀ id m c₁, (remoteTable none).getById id = .ok (m, c₁) →
        ∃ c₂, ((remoteTable none).countVersion ⟨0, 0, 0⟩).getById id = .ok (m, c₂)) ↔
    ∀ id reply logOffset l, (remoteTable none).Fetches id reply logOffset →
      (remoteTable none).refusedAt addColumnC 20 = some l →
      (remoteTable none).place reply.m_dbName reply.m_tableName logOffset ≠ some l :=
  MetaDataCollection.alterTable_failed_iff (alterTable_remoteTable none) (by decide)

/-- With a server, the id of the table it answers is another one after the failed statement. -/
theorem alterTable_failed_changes_id :
    ∃ (c c' : MetaDataCollection) (a : AlterTable) (cp : Nat) (r : Int) (id : Nat),
      c.alterTable a cp = .ok (r, c') ∧ r ≠ 0 ∧
        (c'.getById id).map Prod.fst ≠ (c.getById id).map Prod.fst :=
  ⟨remoteTable (some laterTable), _, addColumnC, 20, -1, 7, alterTable_remoteTable _, by decide,
    by decide +kernel⟩

end DBStream.Native.Meta
