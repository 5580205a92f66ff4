import DBStream.Spec.TableEdits

/-!
# Keys follow their columns

Beside a table that calls change run the identities of its columns: the numbers from `0` on for those
it starts with, and a new number for each that is added.  A column of a key designates the identity
at its place.  After calls that are `Safe` each key designates the columns it was created on, less
those that were dropped, and a key of which none is left is gone.
-/

namespace DBStream.Native.Meta

/-- The identities of the columns of a table, and the next one. -/
structure Lineage where
  columns : List Nat
  next : Nat

/-- The identities of the columns that a table starts with. -/
def Lineage.start (t : TableMeta) : Lineage where
  columns := List.range t.columnsCount
  next := t.columnsCount

/-- The identities are edited with the columns. -/
def Lineage.edit (l : Lineage) (e : ListEdit) : Lineage where
  columns := e.track l.next l.columns
  next := l.next + 1

/-- Successful calls that satisfy `P` on the table they are made on. -/
inductive ColumnRun (P : TableMeta → ColumnCall → Prop) (t₀ : TableMeta) : TableMeta → Lineage → Prop
  | start : ColumnRun P t₀ t₀ (.start t₀)
  | call {t : TableMeta} {l : Lineage} {c : ColumnCall} {t' : TableMeta} : ColumnRun P t₀ t l → P t c →
      t.call c = .ok (0, t') → ColumnRun P t₀ t' (l.edit (t.editOf c))

/-- A column of a key is the one with an identity: it has its place and its type. -/
def Designates (t : TableMeta) (l : Lineage) (c : UniqueKeyTypePair) (id : Nat) : Prop :=
  l.columns[c.columnId]? = some id ∧ ∃ m : ColumnMeta, t.m_columns[c.columnId]? = some m ∧
    m.m_columnIndex = c.columnId ∧ m.m_columnType.code = c.type

def keysLeft (l : Lineage) (start : List (List Nat × String)) : List (List Nat × String) :=
  (start.map fun k => (k.1.filter (· ∈ l.columns), k.2)).filter fun k => !k.1.isEmpty

/-- The keys designate, in order, what is left of the columns that they were created on. -/
structure KeysFollow (t₀ t : TableMeta) (l : Lineage) : Prop where
  count : l.columns.length = t.columnsCount
  distinct : l.columns.Nodup
  keys : ∀ kind, List.Forall₂ (fun k s => ∃ key : UnionKeyMeta, k = (some key, s.2) ∧
    List.Forall₂ (Designates t l) key.columnInfo s.1) (t.keys kind) (keysLeft l (t₀.keyColumns kind))

/-- A table whose keys are those of its columns. -/
structure Described (t : TableMeta) : Prop where
  count : t.columnsCount < 2 ^ 16
  places : ∀ i (c : ColumnMeta), t.m_columns[i]? = some c → c.m_columnIndex = i
  keys : ∀ kind, ∀ k ∈ t.keys kind, ∃ key : UnionKeyMeta, k.1 = some key ∧ key.columnInfo ≠ [] ∧
    ∀ c ∈ key.columnInfo, (t.types[c.columnId]?).map ColumnType.code = some c.type

variable {t₀ t t' : TableMeta} {s : Schema} {l : Lineage} {e : ListEdit} {type : ColumnType}

/-! ## The start -/

def TableMeta.schema (t : TableMeta) : Schema where
  types := t.types
  keys := fun kind => (t.keys kind).map fun k => (k.1.toList.flatMap UnionKeyMeta.columnInfo, k.2)

theorem Described.has (h : Described t) : t.Has t.schema where
  types := rfl
  places := h.places
  keys := by
    intro kind
    show Written (t.keys kind) ((t.keys kind).map _)
    have hkeys := h.keys kind
    rw [Written, List.forall₂_map_right_iff, List.forall₂_same]
    intro k hk
    obtain ⟨key, hkey, -⟩ := hkeys k hk
    exact ⟨key, Prod.ext hkey rfl, by simp [hkey]⟩

theorem Described.sound (h : Described t) : t.schema.Sound where
  count := by
    have hlen : t.types.length = t.columnsCount := List.length_map _
    exact hlen ▸ h.count
  nonempty := by
    intro kind k hk
    obtain ⟨k₀, hk₀, rfl⟩ := List.mem_map.mp hk
    obtain ⟨key, hkey, hne, -⟩ := h.keys kind k₀ hk₀
    simpa [hkey] using hne
  typed := by
    intro kind k hk
    obtain ⟨k₀, hk₀, rfl⟩ := List.mem_map.mp hk
    obtain ⟨key, hkey, -, htyped⟩ := h.keys kind k₀ hk₀
    have hcolumns : k₀.1.toList.flatMap UnionKeyMeta.columnInfo = key.columnInfo := by simp [hkey]
    rw [hcolumns]
    exact htyped

/-- The keys of a schema are on the columns with these identities. -/
def Follow (l : Lineage) (ks : List (List UniqueKeyTypePair × String)) (ids : List (List Nat × String)) :
    Prop :=
  List.Forall₂ (fun k s => k.2 = s.2 ∧
    List.Forall₂ (fun c id => l.columns[c.columnId]? = some id) k.1 s.1) ks ids

/-- The invariant of a run. -/
structure Following (t₀ t : TableMeta) (l : Lineage) (s : Schema) : Prop where
  has : t.Has s
  sound : s.Sound
  count : l.columns.length = s.types.length
  distinct : l.columns.Nodup
  old : ∀ id ∈ l.columns, id < l.next
  next : t₀.columnsCount ≤ l.next
  keys : ∀ kind, Follow l (s.keys kind) (keysLeft l (t₀.keyColumns kind))

private theorem keysLeft_self {start : List (List Nat × String)} (hne : ∀ k ∈ start, k.1 ≠ [])
    (hmem : ∀ k ∈ start, ∀ id ∈ k.1, id ∈ l.columns) : keysLeft l start = start := by
  have hmap : (start.map fun k => (k.1.filter (· ∈ l.columns), k.2)) = start := by
    conv_rhs => rw [← List.map_id start]
    refine List.map_congr_left fun k hk => ?_
    rw [List.filter_eq_self.mpr fun id hid => by simpa using hmem k hk id hid]
    rfl
  rw [keysLeft, hmap, List.filter_eq_self]
  intro k hk
  simpa using hne k hk

theorem Described.following (h : Described t) : Following t t (.start t) t.schema where
  has := h.has
  sound := h.sound
  count := by
    have hlen : t.types.length = t.columnsCount := List.length_map _
    show (List.range t.columnsCount).length = t.types.length
    rw [hlen, List.length_range]
  distinct := List.nodup_range
  old := fun id hid => List.mem_range.mp hid
  next := Nat.le_refl _
  keys := by
    intro kind
    have hlt : ∀ k ∈ t.schema.keys kind, ∀ c ∈ k.1, c.columnId < t.columnsCount := by
      intro k hk c hc
      rw [columnsCount_eq h.has]
      exact h.sound.lt hk hc
    have hne : ∀ k ∈ t.schema.keys kind, k.1 ≠ [] := fun k hk => h.sound.nonempty hk
    rw [h.has.keyColumns, keysLeft_self]
    · rw [Follow, List.forall₂_map_right_iff, List.forall₂_same]
      intro k hk
      refine ⟨rfl, ?_⟩
      rw [List.forall₂_map_right_iff, List.forall₂_same]
      intro c hc
      show (List.range t.columnsCount)[c.columnId]? = some c.columnId
      rw [List.getElem?_range (hlt k hk c hc)]
    · intro k hk
      obtain ⟨k₀, hk₀, rfl⟩ := List.mem_map.mp hk
      simpa using hne k₀ hk₀
    · intro k hk id hid
      obtain ⟨k₀, hk₀, rfl⟩ := List.mem_map.mp hk
      obtain ⟨c, hc, rfl⟩ := List.mem_map.mp hid
      exact List.mem_range.mpr (hlt k₀ hk₀ c hc)

/-! ## Edits -/

theorem keysLeft_cons (l : Lineage) (k : List Nat × String) (start : List (List Nat × String)) :
    keysLeft l (k :: start) = if k.1.filter (· ∈ l.columns) = [] then keysLeft l start
      else (k.1.filter (· ∈ l.columns), k.2) :: keysLeft l start := by
  simp only [keysLeft, List.map_cons, List.filter_cons]
  cases k.1.filter (· ∈ l.columns) <;> rfl

theorem keysLeft_edit {start : List (List Nat × String)}
    (hold : ∀ k ∈ start, ∀ id ∈ k.1, id ∈ (l.edit e).columns → id ∈ l.columns) :
    keysLeft (l.edit e) start = keysLeft (l.edit e) (keysLeft l start) := by
  induction start with
  | nil => rfl
  | cons k start ih =>
    have hrest := ih fun k hk => hold k (List.mem_cons_of_mem _ hk)
    have hfilter : (k.1.filter (· ∈ l.columns)).filter (· ∈ (l.edit e).columns) =
        k.1.filter (· ∈ (l.edit e).columns) := by
      rw [List.filter_filter]
      refine List.filter_congr fun id hid => ?_
      grind
    rw [keysLeft_cons, keysLeft_cons]
    by_cases hnil : k.1.filter (· ∈ l.columns) = []
    · have hnone : k.1.filter (· ∈ (l.edit e).columns) = [] := by rw [← hfilter, hnil, List.filter_nil]
      rw [if_pos hnil, if_pos hnone, hrest]
    · rw [if_neg hnil, keysLeft_cons, hfilter, hrest]

private theorem follow_editPairs {cs : List UniqueKeyTypePair} {ids : List Nat}
    (hfits : e.Fits l.columns.length) (hdistinct : l.columns.Nodup)
    (h : List.Forall₂ (fun c id => l.columns[c.columnId]? = some id) cs ids) :
    List.Forall₂ (fun c id => (l.edit e).columns[c.columnId]? = some id) (editPairs e type cs)
      (ids.filter (· ∈ (l.edit e).columns)) := by
  refine h.filterMap_filter ?_ ?_
  · intro c id c' hid hedit
    obtain ⟨q, hplace, rfl⟩ := Option.map_eq_some_iff.mp hedit
    have hget : (l.edit e).columns[q]? = some id := (ListEdit.getElem?_track hfits hplace).trans hid
    exact ⟨decide_eq_true (List.mem_of_getElem? hget), hget⟩
  · intro c id hid hedit
    exact decide_eq_false (ListEdit.not_mem_track hdistinct hid (Option.map_eq_none_iff.mp hedit))

theorem Follow.edit {ks : List (List UniqueKeyTypePair × String)} {ids : List (List Nat × String)}
    (hfits : e.Fits l.columns.length) (hdistinct : l.columns.Nodup) (h : Follow l ks ids) :
    Follow (l.edit e) (editKeys e type ks) (keysLeft (l.edit e) ids) := by
  refine List.rel_filter (p := fun k : List UniqueKeyTypePair × String => !k.1.isEmpty)
    (q := fun k : List Nat × String => !k.1.isEmpty) ?_ ?_
  · rintro k s ⟨-, hks⟩
    have hlen := hks.length_eq
    simp [← List.length_eq_zero_iff, hlen]
  · rw [List.forall₂_map_left_iff, List.forall₂_map_right_iff]
    exact h.imp fun k s hks => ⟨hks.1, follow_editPairs hfits hdistinct hks.2⟩

private theorem lt_of_mem_keyColumns (h : Described t) {kind : KeyType} {k : List Nat × String}
    (hk : k ∈ t.keyColumns kind) {id : Nat} (hid : id ∈ k.1) : id < t.columnsCount := by
  rw [h.has.keyColumns] at hk
  obtain ⟨k₀, hk₀, rfl⟩ := List.mem_map.mp hk
  obtain ⟨c, hc, rfl⟩ := List.mem_map.mp hid
  rw [columnsCount_eq h.has]
  exact h.sound.lt hk₀ hc

theorem Following.step (h₀ : Described t₀) (h : Following t₀ t l s) {c : ColumnCall}
    (hsafe : Safe t c) (hcall : t.call c = .ok (0, t')) :
    Following t₀ t' (l.edit (t.editOf c)) (s.edit (t.editOf c) c.newType) := by
  obtain ⟨hfits, hhas⟩ := call_spec h.has h.sound hsafe hcall
  have hfits' : (t.editOf c).Fits l.columns.length := by rwa [h.count]
  have hfresh : l.next ∉ l.columns := fun hmem => Nat.lt_irrefl _ (h.old _ hmem)
  refine ⟨hhas, h.sound.edit hfits (length_safe h.has h.sound hsafe hfits), ?_, ?_, ?_, ?_, ?_⟩
  · exact ListEdit.length_track h.count
  · exact ListEdit.nodup_track hfits' h.distinct hfresh
  · intro id hid
    show id < l.next + 1
    obtain hold | rfl := ListEdit.mem_of_mem_track hfits' hid
    · have := h.old id hold
      omega
    · omega
  · exact Nat.le_succ_of_le h.next
  · intro kind
    rw [keysLeft_edit]
    · exact (h.keys kind).edit hfits' h.distinct
    · intro k hk id hid hmem
      obtain hold | rfl := ListEdit.mem_of_mem_track hfits' hmem
      · exact hold
      · have hlt := lt_of_mem_keyColumns h₀ hk hid
        have hle := h.next
        omega

theorem ColumnRun.following (h₀ : Described t₀) (hrun : ColumnRun Safe t₀ t l) :
    ∃ s, Following t₀ t l s := by
  induction hrun with
  | start => exact ⟨_, h₀.following⟩
  | call _ hsafe hcall ih =>
    obtain ⟨s, hs⟩ := ih
    exact ⟨_, hs.step h₀ hsafe hcall⟩

/-! ## The keys of a run -/

theorem Following.keysFollow (h : Following t₀ t l s) : KeysFollow t₀ t l := by
  refine ⟨h.count.trans (columnsCount_eq h.has).symm, h.distinct, fun kind => ?_⟩
  have hwritten : Written (t.keys kind) (s.keys kind) := h.has.keys kind
  have hkeys := h.keys kind
  have htyped : ∀ k ∈ s.keys kind, ∀ c ∈ k.1, ∃ m : ColumnMeta, t.m_columns[c.columnId]? = some m ∧
      m.m_columnIndex = c.columnId ∧ m.m_columnType.code = c.type := by
    intro k hk c hc
    have htype := h.sound.typed hk c hc
    rw [← h.has.types, TableMeta.types, List.getElem?_map, Option.map_map] at htype
    obtain ⟨m, hm, hcode⟩ := Option.map_eq_some_iff.mp htype
    exact ⟨m, hm, h.has.places _ m hm, hcode⟩
  generalize t.keys kind = keys at hwritten
  generalize s.keys kind = ks at hwritten hkeys htyped
  generalize keysLeft l (t₀.keyColumns kind) = ids at hkeys
  induction hwritten generalizing ids with
  | nil =>
    cases hkeys
    exact .nil
  | @cons _ k _ _ hk _ ih =>
    cases hkeys with
    | cons hcolumns hrest =>
      obtain ⟨key, rfl, hkey⟩ := hk
      obtain ⟨hname, hcolumns⟩ := hcolumns
      refine .cons ⟨key, by rw [hname], ?_⟩ (ih (fun k hk => htyped k (List.mem_cons_of_mem _ hk)) _ hrest)
      rw [hkey]
      have hboth := (List.forall₂_and_left ..).mpr ⟨htyped k (List.mem_cons_self ..), hcolumns⟩
      exact hboth.imp fun c id hc => ⟨hc.2, hc.1⟩

/-- In a run of safe calls the keys follow their columns. -/
theorem keysFollow_of_run (h₀ : Described t₀) (hrun : ColumnRun Safe t₀ t l) : KeysFollow t₀ t l := by
  obtain ⟨s, hs⟩ := hrun.following h₀
  exact hs.keysFollow

def numbersTable : TableMeta :=
  { m_columns := [{ m_columnType := .T_UINT32, m_columnName := "a", m_columnIndex := 0 },
      { m_columnType := .T_UINT32, m_columnName := "b", m_columnIndex := 1 },
      { m_columnType := .T_UINT32, m_columnName := "c", m_columnIndex := 2 }]
    m_primaryKey := some ⟨4, true, .PRIMARY_KEY, 0, 0, [⟨5, 0⟩]⟩
    m_uniqueKeys := { keys := [(some ⟨8, true, .UNIQUE_KEY, 0, 0, [⟨5, 0⟩, ⟨5, 2⟩]⟩, "u")] }
    m_indexs := { keys := [(some ⟨4, true, .INDEX, 0, 0, [⟨5, 1⟩]⟩, "i")] } }

theorem described_numbersTable : Described numbersTable := by
  refine ⟨by decide, ?_, ?_⟩
  · intro i c hc
    match i with
    | 0 | 1 | 2 =>
      cases hc
      rfl
    | n + 3 => cases hc
  · intro kind k hk
    cases kind with
    | PRIMARY_KEY | UNIQUE_KEY | INDEX =>
      cases List.mem_singleton.mp hk
      exact ⟨_, rfl, by decide, by decide⟩

/-- The last column is moved to the front and gets a larger type. -/
theorem keysFollow_of_run_numbersTable : ∃ t l, ColumnRun Safe numbersTable t l ∧
    KeysFollow numbersTable t l := by
  let c : ColumnCall := .modifyColumn { m_columnType := .T_UINT64, m_columnName := "c" } true none
  have hcall : ∃ t, numbersTable.call c = .ok (0, t) := ⟨_, rfl⟩
  have hmove : numbersTable.editOf c = .move 2 0 := rfl
  have hsafe : Safe numbersTable c := by
    rw [Safe, hmove]
    trivial
  obtain ⟨t, hcall⟩ := hcall
  have hrun := ColumnRun.call .start hsafe hcall
  exact ⟨t, _, hrun, keysFollow_of_run described_numbersTable hrun⟩

/-- After a call on `numbersTable` the keys do not follow their columns. -/
def LosesColumns (c : ColumnCall) : Prop :=
  ∃ t, ColumnRun (fun _ _ => True) numbersTable t
      ((Lineage.start numbersTable).edit (numbersTable.editOf c)) ∧
    ¬KeysFollow numbersTable t ((Lineage.start numbersTable).edit (numbersTable.editOf c))

/-- A column that is added in front is taken for the one before that of the index, the index keeps a
    column that was dropped, and the unique key keeps nothing when it loses its first column. -/
theorem keys_lose_columns : Described numbersTable ∧
    LosesColumns (.addColumn { m_columnType := .T_UINT64, m_columnName := "d" } none true) ∧
    LosesColumns (.dropColumn "b") ∧ LosesColumns (.dropColumn "a") := by
  refine ⟨described_numbersTable, ⟨_, .call .start trivial rfl, fun hf => ?_⟩,
    ⟨_, .call .start trivial rfl, fun hf => ?_⟩, ⟨_, .call .start trivial rfl, fun hf => ?_⟩⟩
  · cases hf.keys .INDEX with
    | cons hk _ =>
      obtain ⟨key, hkey, hcolumns⟩ := hk
      cases hkey
      cases hcolumns with
      | cons hd _ => exact absurd hd.1 (by decide)
  · cases hf.keys .INDEX
  · cases hf.keys .UNIQUE_KEY with
    | cons hk _ =>
      obtain ⟨key, hkey, hcolumns⟩ := hk
      cases hkey
      cases hcolumns with
      | cons hd _ => exact absurd hd.1 (by decide)

end DBStream.Native.Meta
