import DBStream.Spec.KeySummary

/-!
# The summaries of the keys of a table

`TableRun` mixes the calls that change columns and those that change keys.  In a run of calls that keep
the keys on their columns (`Safe`, `DropsLast`), and neither make a fixed key variable or a variable one
fixed nor take a column out of a key that has others (`KeepsSummaries`), the summary of each key is the
one that `createUnionKey` computes of its columns: `exactKeys_of_run`.
-/

namespace DBStream.Native.Meta

/-- A call that changes columns or keys. -/
inductive TableCall where
  | column (c : ColumnCall)
  | key (c : KeyCall)

def TableMeta.tableCall (t : TableMeta) : TableCall → Exec (Int × TableMeta)
  | .column c => t.call c
  | .key c => t.keyCall c

/-- Successful calls that satisfy `P` on the table they are made on. -/
inductive TableRun (P : TableMeta → TableCall → Prop) (t₀ : TableMeta) : TableMeta → Prop
  | start : TableRun P t₀ t₀
  | call {t t' : TableMeta} {c : TableCall} : TableRun P t₀ t → P t c → t.tableCall c = .ok (0, t') →
      TableRun P t₀ t'

/-- The summary of a key is the one that `createUnionKey` computes of its columns. -/
structure KeyExact (t : TableMeta) (key : UnionKeyMeta) : Prop where
  count : key.columnInfo.length < 256
  summary : ∃ types, (key.columnInfo.map UniqueKeyTypePair.columnId).mapM (fun id => t.types[id]?) =
    some types ∧ Summarized key types

/-- The summaries of all keys are. -/
def ExactKeys (t : TableMeta) : Prop :=
  ∀ kind, ∀ k ∈ t.keys kind, ∃ key : UnionKeyMeta, k.1 = some key ∧ KeyExact t key

/-- A key stays fixed or stays variable when its column at `start` gets another type. -/
def StaysFixed (t : TableMeta) (start : Nat) (newType : ColumnType) (key : UnionKeyMeta) : Prop :=
  (∃ c ∈ key.columnInfo, c.columnId = start) →
    (∀ old ∈ t.types[start]?, old.info.fixed = newType.info.fixed) ∨
      ∃ c ∈ key.columnInfo, c.columnId ≠ start ∧
        ∀ type ∈ t.types[c.columnId]?, type.info.fixed = false

/-- An edit of which the code brings the summaries of the keys up to date. -/
def KeepsSummaries (t : TableMeta) (newType : ColumnType) : ListEdit → Prop
  | .move start _ => ∀ kind, ∀ k ∈ t.keys kind, ∀ key ∈ k.1, StaysFixed t start newType key
  | .erase place => ∀ kind, kind ≠ .INDEX → ∀ k ∈ t.keyColumns kind, place ∈ k.1 → k.1 = [place]
  | _ => True

/-- A call after which the summaries are right. -/
def SummarySafe (t : TableMeta) : TableCall → Prop
  | .column c => Safe t c ∧ KeepsSummaries t c.newType (t.editOf c)
  | .key c => DropsLast t c

variable {t t' t₀ : TableMeta} {s : Schema} {key : UnionKeyMeta} {kind : KeyType} {start dest p : Nat}
  {newType : ColumnType}

/-! ## Keys and the types of their pairs -/

theorem Described.of_has (h : t.Has s) (hs : s.Sound) : Described t where
  count := columnsCount_eq h ▸ hs.count
  places := h.places
  keys := by
    intro kind k hk
    obtain ⟨i, hi, rfl⟩ := List.getElem_of_mem hk
    have hwritten : Written (t.keys kind) (s.keys kind) := h.keys kind
    obtain ⟨key, hkey, hcolumns⟩ := List.Forall₂.get hwritten hi (hwritten.length_eq ▸ hi)
    have hmem : (s.keys kind).get ⟨i, hwritten.length_eq ▸ hi⟩ ∈ s.keys kind := List.get_mem ..
    refine ⟨key, congrArg Prod.fst hkey, ?_, ?_⟩
    · rw [hcolumns]
      exact hs.nonempty hmem
    · rw [hcolumns, h.types]
      exact hs.typed hmem

theorem pairTypes_iff {cs : List UniqueKeyTypePair} {types : List ColumnType}
    (htyped : ∀ c ∈ cs, (t.types[c.columnId]?).map ColumnType.code = some c.type) :
    cs.map UniqueKeyTypePair.type = types.map ColumnType.code ↔
      (cs.map UniqueKeyTypePair.columnId).mapM (fun id => t.types[id]?) = some types := by
  induction cs generalizing types with
  | nil => cases types <;> simp
  | cons c cs ih =>
    obtain ⟨type, htype, hcode⟩ := Option.map_eq_some_iff.mp (htyped c (List.mem_cons_self ..))
    have hrest := fun {types} => @ih types fun c hc => htyped c (List.mem_cons_of_mem _ hc)
    rw [List.map_cons, List.map_cons, List.mapM_cons, htype]
    show _ ↔ ((cs.map UniqueKeyTypePair.columnId).mapM (fun id => t.types[id]?)).bind
      (fun rest => some (type :: rest)) = some types
    cases types with
    | nil =>
      constructor
      · intro h
        cases h
      · intro h
        obtain ⟨rest, -, h⟩ := Option.bind_eq_some_iff.mp h
        cases h
    | cons type' types =>
      rw [List.map_cons, List.cons.injEq, hrest, ← hcode]
      constructor
      · rintro ⟨hsame, hmap⟩
        rw [hmap, ColumnType.code_injective hsame]
        rfl
      · intro h
        obtain ⟨rest, hmap, h⟩ := Option.bind_eq_some_iff.mp h
        cases h
        exact ⟨rfl, hmap⟩

theorem selfExact_iff (h : Described t) {k : Option UnionKeyMeta × String} (hk : k ∈ t.keys kind)
    (hkey : k.1 = some key) : SelfExact key ↔ KeyExact t key := by
  obtain ⟨key', hkey', -, htyped⟩ := h.keys kind k hk
  cases hkey.symm.trans hkey'
  constructor
  · rintro ⟨hcount, types, htypes, hsummary⟩
    exact ⟨hcount, types, (pairTypes_iff htyped).mp htypes, hsummary⟩
  · rintro ⟨hcount, types, htypes, hsummary⟩
    exact ⟨hcount, types, (pairTypes_iff htyped).mpr htypes, hsummary⟩

/-- All keys have the summary of the types that their pairs name. -/
def SelfExactKeys (t : TableMeta) : Prop := ∀ kind, ∀ k ∈ t.keys kind, ∀ key ∈ k.1, SelfExact key

theorem selfExactKeys_iff (h : Described t) : SelfExactKeys t ↔ ExactKeys t := by
  constructor
  · intro hexact kind k hk
    obtain ⟨key, hkey, -⟩ := h.keys kind k hk
    exact ⟨key, hkey, (selfExact_iff h hk hkey).mp (hexact kind k hk key hkey)⟩
  · intro hexact kind k hk key hkey
    obtain ⟨key', hkey', hexact⟩ := hexact kind k hk
    cases hkey'.symm.trans hkey
    exact (selfExact_iff h hk hkey).mpr hexact

/-! ## Updates -/

/-- Each key is the update of a key of the same kind. -/
def UpdatedKeys (t t' : TableMeta) (start dest : Nat) (newType : ColumnType) : Prop :=
  ∀ kind, ∀ k' ∈ t'.keys kind, ∃ k ∈ t.keys kind, ∃ key key' : UnionKeyMeta, k.1 = some key ∧
    k'.1 = some key' ∧ key.columnUpdate start dest newType = .ok key'

theorem mem_updateKeys {a a' : KeyArray} (h : TableMeta.updateKeys start dest newType a = .ok a')
    {k' : Option UnionKeyMeta × String} (hk' : k' ∈ a'.keys) :
    ∃ k ∈ a.keys, ∃ key key' : UnionKeyMeta, k.1 = some key ∧ k'.1 = some key' ∧
      key.columnUpdate start dest newType = .ok key' := by
  obtain ⟨keys, hmap, hret⟩ := Exec.of_bind h
  cases hret
  have hall := Exec.mapM_eq_ok.mp hmap
  obtain ⟨i, hi, rfl⟩ := List.getElem_of_mem hk'
  have hupdate := List.Forall₂.get hall (hall.length_eq ▸ hi) hi
  have hmem : a.keys.get ⟨i, hall.length_eq ▸ hi⟩ ∈ a.keys := List.get_mem ..
  generalize a.keys.get ⟨i, hall.length_eq ▸ hi⟩ = k at hupdate hmem
  obtain ⟨key, name⟩ := k
  cases key with
  | none => cases hupdate
  | some key =>
    obtain ⟨key', hcolumns, hret⟩ := Exec.of_bind hupdate
    refine ⟨_, hmem, key, key', rfl, ?_, hcolumns⟩
    exact (congrArg Prod.fst (Except.ok.inj hret)).symm

theorem updateKeysWhenColumnUpdate_keys
    (h : t.updateKeysWhenColumnUpdate start dest newType = .ok t') :
    UpdatedKeys t t' start dest newType := by
  obtain ⟨pk, hpk, h⟩ := Exec.of_bind h
  obtain ⟨uniqueKeys, hunique, h⟩ := Exec.of_bind h
  obtain ⟨indexs, hindexs, h⟩ := Exec.of_bind h
  cases h
  intro kind k' hk'
  cases kind with
  | PRIMARY_KEY => exact mem_updateKeys (updatePrimary_eq hpk) hk'
  | UNIQUE_KEY => exact mem_updateKeys hunique hk'
  | INDEX => exact mem_updateKeys hindexs hk'

/-- A key stays fixed or not fixed when one of its columns changes its type. -/
theorem allFixed_of_staysFixed {cs : List UniqueKeyTypePair} {types : List ColumnType}
    (htypes : (cs.map UniqueKeyTypePair.columnId).mapM (fun id => t.types[id]?) = some types)
    (hstays : (∃ c ∈ cs, c.columnId = start) →
      (∀ old ∈ t.types[start]?, old.info.fixed = newType.info.fixed) ∨
        ∃ c ∈ cs, c.columnId ≠ start ∧ ∀ type ∈ t.types[c.columnId]?, type.info.fixed = false) :
    UnionKeyMeta.allFixed (List.zipWith (UnionKeyMeta.retype start newType) cs types) =
      UnionKeyMeta.allFixed types := by
  have hall := List.forall₂_of_mapM_eq_some htypes
  rw [List.forall₂_map_left_iff] at hall
  by_cases hvar : ∃ c ∈ cs, c.columnId ≠ start ∧ ∀ type ∈ t.types[c.columnId]?, type.info.fixed = false
  · -- a variable column that stays makes both keys variable
    clear hstays
    obtain ⟨c, hc, hne, hvar⟩ := hvar
    have hboth : UnionKeyMeta.allFixed (List.zipWith (UnionKeyMeta.retype start newType) cs types) = false ∧
        UnionKeyMeta.allFixed types = false := by
      clear htypes
      induction hall with
      | nil => cases hc
      | @cons d type cs types hd _ ih =>
        rcases List.mem_cons.mp hc with rfl | hc
        · have hfixed := hvar type hd
          simp [UnionKeyMeta.allFixed, UnionKeyMeta.retype, hne, hfixed]
        · obtain ⟨hnew, hold⟩ := ih hc
          unfold UnionKeyMeta.allFixed at hnew hold ⊢
          rw [List.zipWith_cons_cons, List.all_cons, List.all_cons, hnew, hold, Bool.and_false,
            Bool.and_false]
          exact ⟨rfl, rfl⟩
    rw [hboth.1, hboth.2]
  · have hsame : (∃ c ∈ cs, c.columnId = start) →
        ∀ old ∈ t.types[start]?, old.info.fixed = newType.info.fixed :=
      fun hex => (hstays hex).resolve_right hvar
    clear hstays hvar htypes
    induction hall with
    | nil => rfl
    | @cons d type cs types hd _ ih =>
      have hrest := ih fun hex => hsame (hex.imp fun c hc => ⟨List.mem_cons_of_mem _ hc.1, hc.2⟩)
      unfold UnionKeyMeta.allFixed at hrest ⊢
      rw [List.zipWith_cons_cons, List.all_cons, List.all_cons, hrest]
      by_cases heq : d.columnId = start
      · have hfixed := hsame ⟨d, List.mem_cons_self .., heq⟩ type (heq ▸ hd)
        simp [UnionKeyMeta.retype, heq, hfixed]
      · simp [UnionKeyMeta.retype, heq]

theorem SelfExactKeys.update (h : Described t) (hexact : SelfExactKeys t)
    (hupdated : UpdatedKeys t t' start dest newType)
    (hstays : ∀ kind, ∀ k ∈ t.keys kind, ∀ key ∈ k.1, StaysFixed t start newType key) :
    SelfExactKeys t' := by
  intro kind k' hk' key' hkey'
  obtain ⟨k, hk, key, key₁, hkey, hkey₁, hupdate⟩ := hupdated kind k' hk'
  cases hkey₁.symm.trans hkey'
  have hself := hexact kind k hk key hkey
  obtain ⟨types, hcodes, hsummary⟩ := hself.summary
  obtain ⟨key₂, hkey₂, -, htyped⟩ := h.keys kind k hk
  cases hkey.symm.trans hkey₂
  have hkeeps := allFixed_of_staysFixed ((pairTypes_iff htyped).mp hcodes) (hstays kind k hk key hkey)
  obtain ⟨hcodes', hsummary'⟩ :=
    UnionKeyMeta.columnUpdate_exact hself.count hcodes hsummary hkeeps hupdate
  refine ⟨?_, _, hcodes', hsummary'⟩
  have hlen := congrArg List.length hcodes'
  have hcount := hself.count
  rw [List.length_map, List.length_map, List.length_zipWith] at hlen
  omega

/-! ## Calls on columns -/

theorem keys_withColumns (t : TableMeta) (columns : List ColumnMeta) (kind : KeyType) :
    ({ t with m_columns := columns } : TableMeta).keys kind = t.keys kind := by
  cases kind <;> rfl

private theorem keys_buildColumnOffsetList (t : TableMeta) (kind : KeyType) :
    t.buildColumnOffsetList.keys kind = t.keys kind := by
  cases kind <;> rfl

theorem addColumn_keys {column : ColumnMeta} {addAfter : Option String} {first : Bool}
    (h : t.addColumn column addAfter first = .ok (0, t')) : (∀ kind, t'.keys kind = t.keys kind) ∨
      ∃ place, t.addPlace addAfter first = some place ∧
        UpdatedKeys t t' place place column.m_columnType := by
  unfold TableMeta.addColumn at h
  split at h
  · cases h
  · split at h
    · cases h
    case h_2 place hplace =>
      split at h
      · cases h
      · obtain ⟨c, -, h⟩ := Exec.of_bind h
        dsimp only at h
        split at h
        · cases h
          exact .inl fun kind => (keys_buildColumnOffsetList _ kind).trans (keys_withColumns t _ kind)
        · obtain ⟨t₁, hupdate, h⟩ := Exec.of_bind h
          cases h
          refine .inr ⟨place, hplace, fun kind k' hk' => ?_⟩
          obtain ⟨k, hk, hrest⟩ := updateKeysWhenColumnUpdate_keys hupdate kind k' hk'
          exact ⟨k, hk, hrest⟩

theorem replaceColumn_keys (h : Described t) {old column : ColumnMeta} {name : String} {first : Bool}
    {addAfter : Option String} (hold : t.getColumn name = some old)
    (hcall : t.replaceColumn old column first addAfter = .ok (0, t')) :
    ∃ start dest, t.moveOf name first addAfter = .move start dest ∧
      UpdatedKeys t t' start dest column.m_columnType := by
  unfold TableMeta.replaceColumn at hcall
  split at hcall
  · cases hcall
  · dsimp only at hcall
    split at hcall
    · cases hcall
    case h_2 dest htarget =>
      split at hcall
      · cases hcall
      · obtain ⟨c, -, hcall⟩ := Exec.of_bind hcall
        obtain ⟨t₁, hupdate, hcall⟩ := Exec.of_bind hcall
        cases hcall
        refine ⟨_, dest, moveOf_eq h.places hold htarget, fun kind k' hk' => ?_⟩
        obtain ⟨k, hk, hrest⟩ := updateKeysWhenColumnUpdate_keys hupdate kind k' hk'
        exact ⟨k, hk, hrest⟩

/-- A column that is taken out of a key is its only one. -/
def TakesWhole (p : Nat) (ks : List (List UniqueKeyTypePair × String)) : Prop :=
  ∀ k ∈ ks, (∃ c ∈ k.1, c.columnId = p) → k.1.map UniqueKeyTypePair.columnId = [p]

private theorem editPairs_erase_whole {cs : List UniqueKeyTypePair}
    (h : cs.map UniqueKeyTypePair.columnId = [p]) : editPairs (.erase p) newType cs = [] := by
  match cs, h with
  | [c], h =>
    have hc : c.columnId = p := (List.cons.inj h).1
    rw [editPairs, List.filterMap_cons_none (UnionKeyMeta.editPair_erase_self hc)]
    rfl

theorem selfExact_of_left {remove : UnionKeyMeta → Nat → UniqueKeyTypePair → Exec UnionKeyMeta}
    {k : List UniqueKeyTypePair × String} {key' : UnionKeyMeta} (hkey : key.columnInfo = k.1)
    (hexact : SelfExact key) (hwhole : (∃ c ∈ k.1, c.columnId = p) →
      k.1.map UniqueKeyTypePair.columnId = [p])
    (hleft : key'.columnInfo = editPairs (.erase p) newType k.1) (hne : key'.columnInfo ≠ [])
    (hdrop : key.dropColumn remove p = .ok key') : SelfExact key' := by
  refine UnionKeyMeta.dropColumn_exact hexact (fun c hc heq => hne ?_) hdrop
  rw [hleft]
  exact editPairs_erase_whole (hwhole ⟨c, hkey ▸ hc, heq⟩)

/-- All keys of an array have the summary of the types that their pairs name. -/
def SelfExactArray (a : KeyArray) : Prop := ∀ k ∈ a.keys, ∀ key ∈ k.1, SelfExact key

theorem dropFromUniqueKeys_exact {ks : List (List UniqueKeyTypePair × String)}
    (hsafe : UniqueSafe t p ks) (hwhole : TakesWhole p ks) (hkeys : Written t.m_uniqueKeys.keys ks)
    (hexact : SelfExactArray t.m_uniqueKeys) (h : t.dropFromUniqueKeys p = .ok t') :
    ∃ a, t' = { t with m_uniqueKeys := a } ∧ SelfExactArray a := by
  have hlen : t.m_uniqueKeys.keys.length = ks.length := hkeys.length_eq
  obtain ⟨a, rfl, -, hend⟩ := dropFromUniqueKeys_rule
    (fun i a => UniqueLoop p .T_UNION (ks.take i) (ks.drop i) a ∧ SelfExactArray a)
    ⟨.of_written hkeys, hexact⟩ (by
      intro i a t' hi hinv hdrop
      rw [hlen] at hi
      obtain ⟨hloop, hall, hi', hnext⟩ := hinv.1.turn hi
      rw [← hi'] at hdrop
      obtain ⟨a', ht', hloop'⟩ := dropFromUniqueKey_spec (by rwa [hall]) hloop hdrop
      rw [hnext] at hloop'
      refine ⟨a', ht', hloop', ?_⟩
      obtain ⟨keys₁, key, keys₂, key', hsplit, -, hkey, -, hremoved, hkey', hend⟩ :=
        dropFromUniqueKey_cases (by rwa [hall]) hloop hdrop
      have hself : ∀ k ∈ keys₁ ++ (some key, ks[i].2) :: keys₂, ∀ key ∈ k.1, SelfExact key :=
        hsplit ▸ hinv.2
      rcases hend with ⟨-, -, freed, hdropped⟩ | ⟨hne, hdropped⟩
      · cases congrArg TableMeta.m_uniqueKeys (ht'.symm.trans hdropped)
        exact fun k hk => hself k (List.mem_append_left _ hk)
      · cases congrArg TableMeta.m_uniqueKeys (ht'.symm.trans hdropped)
        intro k hk
        rcases List.mem_append.mp hk with hk | hk
        · exact hself k (List.mem_append_left _ hk)
        · rcases List.mem_cons.mp hk with rfl | hk
          · intro key₁ hkey₁
            cases hkey₁
            refine selfExact_of_left hkey (hself (some key, ks[i].2) (by simp) key rfl)
              (hwhole _ (List.getElem_mem hi)) hkey' hne hremoved
          · exact hself k (List.mem_append_right _ (List.mem_cons_of_mem _ hk))) h
  exact ⟨a, rfl, hend⟩

theorem dropFromPrimaryKey_exact {ks : List (List UniqueKeyTypePair × String)}
    (hwhole : TakesWhole p ks) (hkeys : Written (t.keys .PRIMARY_KEY) ks)
    (hexact : ∀ key ∈ t.m_primaryKey, SelfExact key) (h : t.dropFromPrimaryKey p = .ok t') :
    ∃ pk, t' = { t with m_primaryKey := pk } ∧ ∀ key ∈ pk, SelfExact key := by
  have hkeys : Written (t.m_primaryKey.toList.map fun k => (some k, "")) ks := hkeys
  unfold TableMeta.dropFromPrimaryKey at h
  cases hold : t.m_primaryKey with
  | none =>
    rw [hold] at h
    cases h
    exact ⟨none, by rw [← hold], fun key hkey => nomatch hkey⟩
  | some key =>
    rw [hold] at h hkeys hexact
    obtain ⟨key', hdrop, h⟩ := Exec.of_bind h
    cases hkeys with
    | @cons _ k _ _ hk hrest =>
      obtain ⟨_, hwritten, hkey⟩ := hk
      cases (Prod.mk.inj hwritten).1
      have hkey' : key'.columnInfo = editPairs (.erase p) .T_UNION key.columnInfo :=
        UnionKeyMeta.dropColumn_spec (UnionKeyMeta.removes_primary p) trivial hdrop
      rw [hkey] at hkey'
      split at h
      case isTrue hnil =>
        have hdropped : TableMeta.dropPrimaryKey { t with m_primaryKey := some key' } =
            .ok { t with m_primaryKey := none } := by
          simp only [TableMeta.dropPrimaryKey, hnil]
          rfl
        rw [hdropped] at h
        cases h
        exact ⟨none, rfl, fun key hkey => nomatch hkey⟩
      case isFalse hne =>
        cases h
        refine ⟨some key', rfl, fun key₁ hkey₁ => ?_⟩
        cases hkey₁
        exact selfExact_of_left hkey (hexact key rfl) (hwhole k (List.mem_cons_self ..)) hkey' hne hdrop

theorem dropColumnAt_exact (h : Described t) (hexact : SelfExactKeys t)
    (hsafe : SafeEdit t (.erase p)) (hkeeps : KeepsSummaries t newType (.erase p))
    (hcall : t.dropColumnAt p = .ok (0, t')) : SelfExactKeys t' := by
  have hwhole (kind : KeyType) (hkind : kind ≠ .INDEX) : TakesWhole p (t.schema.keys kind) := by
    intro k hk ⟨c, hc, heq⟩
    have hmem : (k.1.map UniqueKeyTypePair.columnId, k.2) ∈ t.keyColumns kind := by
      rw [h.has.keyColumns]
      exact List.mem_map_of_mem hk
    exact hkeeps kind hkind _ hmem (heq ▸ List.mem_map_of_mem hc)
  unfold TableMeta.dropColumnAt at hcall
  split at hcall
  · cases hcall
  · obtain ⟨t₁, hunique, hcall⟩ := Exec.of_bind hcall
    obtain ⟨t₂, hprimary, hcall⟩ := Exec.of_bind hcall
    cases hcall
    obtain ⟨a, rfl, huniqueKeys⟩ := dropFromUniqueKeys_exact (uniqueSafe_of_safe h.has h.sound hsafe)
      (hwhole .UNIQUE_KEY nofun) (h.has.keys .UNIQUE_KEY) (hexact .UNIQUE_KEY) hunique
    obtain ⟨pk, rfl, hprimaryKey⟩ := dropFromPrimaryKey_exact (t := { t with m_uniqueKeys := a })
      (hwhole .PRIMARY_KEY nofun) (h.has.keys .PRIMARY_KEY) (by
        intro key hkey
        have hpk : t.m_primaryKey = some key := hkey
        refine hexact .PRIMARY_KEY (some key, "") ?_ key rfl
        rw [TableMeta.keys, hpk]
        exact List.mem_singleton_self _) hprimary
    intro kind k hk
    cases kind with
    | PRIMARY_KEY =>
      obtain ⟨key, hkey, rfl⟩ := List.mem_map.mp hk
      intro key' hkey'
      cases hkey'
      exact hprimaryKey key (Option.mem_toList.mp hkey)
    | UNIQUE_KEY => exact huniqueKeys k hk
    | INDEX => exact hexact .INDEX k hk

theorem mem_keyColumns {k : Option UnionKeyMeta × String} (hk : k ∈ t.keys kind) (hkey : k.1 = some key) :
    (key.columnInfo.map UniqueKeyTypePair.columnId, k.2) ∈ t.keyColumns kind := by
  refine List.mem_map.mpr ⟨k, hk, ?_⟩
  rw [hkey]
  simp

theorem SelfExactKeys.congr (hexact : SelfExactKeys t) (hkeys : ∀ kind, t'.keys kind = t.keys kind) :
    SelfExactKeys t' := by
  intro kind k hk
  rw [hkeys] at hk
  exact hexact kind k hk

/-- A column call that keeps the summaries leaves exact keys. -/
theorem column_exact (h : Described t) (hexact : SelfExactKeys t) {c : ColumnCall} (hsafe : Safe t c)
    (hkeeps : KeepsSummaries t c.newType (t.editOf c)) (hcall : t.call c = .ok (0, t')) :
    SelfExactKeys t' := by
  cases c with
  -- no key has a column at the place of the new one, so no key gets its type
  | addColumn column addAfter first =>
    rcases addColumn_keys hcall with hkeys | ⟨place, hplace, hupdated⟩
    · exact hexact.congr hkeys
    · replace hsafe : SafeEdit t (t.insertOf addAfter first) := hsafe
      rw [insertOf_eq h.has hplace] at hsafe
      refine hexact.update h hupdated fun kind k hk key hkey ⟨c, hc, heq⟩ => ?_
      have hlt := hsafe.2 kind _ (mem_keyColumns hk hkey) _ (List.mem_map_of_mem hc)
      omega
  | dropColumn column =>
    replace hcall : t.dropColumn column = .ok (0, t') := hcall
    unfold TableMeta.dropColumn at hcall
    split at hcall
    · cases hcall
    case h_2 d hd =>
      have hplace : t.placeOf column = some d.m_columnIndex := by
        rw [← getColumn_place h.places, hd]
        rfl
      have hedit : t.editOf (.dropColumn column) = .erase d.m_columnIndex := by
        simp only [TableMeta.editOf, hplace]
      rw [Safe, hedit] at hsafe
      rw [hedit] at hkeeps
      exact dropColumnAt_exact h hexact hsafe hkeeps hcall
  | dropColumnAt columnIndex => exact dropColumnAt_exact h hexact hsafe hkeeps hcall
  | modifyColumn column first addAfter =>
    replace hcall : t.modifyColumn column first addAfter = .ok (0, t') := hcall
    unfold TableMeta.modifyColumn at hcall
    split at hcall
    · cases hcall
    case h_2 old hold =>
      -- a move to `dest`; the type is the one of the new column
      obtain ⟨start, dest, hmove, hupdated⟩ := replaceColumn_keys h hold hcall
      replace hkeeps : KeepsSummaries t column.m_columnType (t.moveOf column.m_columnName first addAfter) :=
        hkeeps
      rw [hmove] at hkeeps
      exact hexact.update h hupdated hkeeps
  | changeColumn newColumn columnName first addAfter =>
    replace hcall : t.changeColumn newColumn columnName first addAfter = .ok (0, t') := hcall
    unfold TableMeta.changeColumn at hcall
    split at hcall
    · cases hcall
    case h_2 old hold =>
      split at hcall
      · cases hcall
      · obtain ⟨start, dest, hmove, hupdated⟩ := replaceColumn_keys h hold hcall
        replace hkeeps : KeepsSummaries t newColumn.m_columnType (t.moveOf columnName first addAfter) :=
          hkeeps
        rw [hmove] at hkeeps
        exact hexact.update h hupdated hkeeps
  | renameColumn oldName newName =>
    obtain ⟨i, rfl⟩ := renameColumn_named hcall
    exact hexact.congr fun kind => keys_withColumns t _ kind

theorem Described.column (h : Described t) {c : ColumnCall} (hsafe : Safe t c)
    (hcall : t.call c = .ok (0, t')) : Described t' := by
  obtain ⟨hfits, hhas⟩ := call_spec h.has h.sound hsafe hcall
  exact .of_has hhas (h.sound.edit hfits (length_safe h.has h.sound hsafe hfits))

/-! ## Calls on keys -/

theorem Described.keyStep (h : Described t) {c : KeyCall} (hstep : KeyStep t c t') : Described t' where
  count := (columnsCount_of_types hstep.types).symm ▸ h.count
  places := numbered_of_unmarked hstep.columns h.places
  keys := by
    intro kind k hk
    rw [hstep.types]
    rcases hstep.mem_keys hk with ⟨k₀, hk₀, hsame⟩ | ⟨keyId, columnIds, key, hne, -, hcreate, hkey⟩
    · rw [hsame]
      exact h.keys kind k₀ hk₀
    · rw [createUnionKey_eq] at hcreate
      obtain ⟨types, htypes, rfl⟩ := Option.map_eq_some_iff.mp hcreate
      obtain ⟨hids, htyped⟩ := keyOn_inside keyId kind htypes
      refine ⟨_, hkey, fun hnil => hne ?_, htyped⟩
      rw [← hids, hnil]
      rfl

theorem SelfExactKeys.keyStep (hexact : SelfExactKeys t) {c : KeyCall} (hstep : KeyStep t c t') :
    SelfExactKeys t' := by
  intro kind k hk key hkey
  rcases hstep.mem_keys hk with ⟨k₀, hk₀, hsame⟩ | ⟨keyId, columnIds, key', -, hlt, hcreate, hkey'⟩
  · exact hexact kind k₀ hk₀ key (hsame ▸ hkey)
  · cases hkey'.symm.trans hkey
    rw [createUnionKey_eq] at hcreate
    obtain ⟨types, htypes, rfl⟩ := Option.map_eq_some_iff.mp hcreate
    have hlen := (List.forall₂_of_mapM_eq_some htypes).length_eq
    refine ⟨?_, types, ?_, summarized_keyOn keyId kind types columnIds⟩
    · show ((types.zip columnIds).map _).length < 256
      rw [List.length_map, List.length_zip]
      omega
    · show ((types.zip columnIds).map _).map UniqueKeyTypePair.type = _
      rw [List.map_map]
      show (types.zip columnIds).map (ColumnType.code ∘ Prod.fst) = _
      rw [← List.map_map, List.map_fst_zip hlen.ge]

/-! ## Runs -/

theorem TableRun.exact (h₀ : Described t₀) (hexact : SelfExactKeys t₀)
    (hrun : TableRun SummarySafe t₀ t) : Described t ∧ SelfExactKeys t := by
  induction hrun with
  | start => exact ⟨h₀, hexact⟩
  | @call _ _ c _ hsafe hcall ih =>
    cases c with
    | column c => exact ⟨ih.1.column hsafe.1 hcall, column_exact ih.1 ih.2 hsafe.1 hsafe.2 hcall⟩
    | key c =>
      have hstep := keyCall_step hsafe hcall
      exact ⟨ih.1.keyStep hstep, ih.2.keyStep hstep⟩

/-- In a run of such calls the summaries of all keys stay exact. -/
theorem exactKeys_of_run (h₀ : Described t₀) (hexact : ExactKeys t₀)
    (hrun : TableRun SummarySafe t₀ t) : ExactKeys t := by
  obtain ⟨hdescribed, hself⟩ := hrun.exact h₀ ((selfExactKeys_iff h₀).mpr hexact)
  exact (selfExactKeys_iff hdescribed).mp hself

theorem exactKeys_numbersTable : ExactKeys numbersTable := by
  intro kind k hk
  cases kind with
  | PRIMARY_KEY | UNIQUE_KEY | INDEX =>
    cases List.mem_singleton.mp hk
    exact ⟨_, rfl, by decide, _, rfl, rfl, rfl, rfl⟩

private theorem summarySafe_addIndex (t : TableMeta) (indexName : String) (columns : List String)
    (keyType : KeyType) : SummarySafe t (.key (.addIndex indexName columns keyType)) :=
  fun _ hp => nomatch hp

/-- The last column gets a larger type and moves to the front, and a second unique key is created. -/
theorem exactKeys_of_run_two : ∃ t, TableRun SummarySafe numbersTable t ∧
    t.m_uniqueKeys.keys.map (fun k => k.1.map UnionKeyMeta.size) = [some 12, some 12] ∧ ExactKeys t := by
  let c : ColumnCall := .modifyColumn (columnOf "c" .T_UINT64) true none
  have hmove : numbersTable.editOf c = .move 2 0 := rfl
  have hsafe : SummarySafe numbersTable (.column c) := by
    refine ⟨?_, ?_⟩
    · rw [Safe, hmove]
      trivial
    · rw [hmove]
      refine fun kind k hk key hkey _ => .inl fun old hold => ?_
      cases hold
      rfl
  have hrun₁ := TableRun.call .start hsafe (rfl : numbersTable.tableCall (.column c) = .ok (0, _))
  have hrun₂ := TableRun.call hrun₁ (summarySafe_addIndex _ "v" ["b", "c"] .UNIQUE_KEY)
    (rfl : TableMeta.tableCall _ (.key (.addIndex "v" ["b", "c"] .UNIQUE_KEY)) = .ok (0, _))
  exact ⟨_, hrun₂, rfl, exactKeys_of_run described_numbersTable exactKeys_numbersTable hrun₂⟩

/-- After a call on `numbersTable` the summary of a key is not that of its columns. -/
def LosesSummary (c : TableCall) : Prop :=
  ∃ t, numbersTable.tableCall c = .ok (0, t) ∧ ¬ExactKeys t

/-- A fixed key that becomes variable counts two bytes too many, and a key that loses a column still
    counts it. -/
theorem keys_lose_summaries : Described numbersTable ∧ ExactKeys numbersTable ∧
    LosesSummary (.column (.modifyColumn (columnOf "c" .T_STRING) false none)) ∧
    LosesSummary (.column (.dropColumn "c")) := by
  refine ⟨described_numbersTable, exactKeys_numbersTable,
    ⟨_, rfl, fun hexact => ?_⟩, ⟨_, rfl, fun hexact => ?_⟩⟩
  · obtain ⟨key, hkey, -, types, htypes, hsummary⟩ := hexact .UNIQUE_KEY _ (List.mem_singleton_self _)
    cases hkey
    cases htypes
    exact absurd hsummary.size (by decide)
  · obtain ⟨key, hkey, -, types, htypes, hsummary⟩ := hexact .UNIQUE_KEY _ (List.mem_singleton_self _)
    cases hkey
    cases htypes
    exact absurd hsummary.size (by decide)

end DBStream.Native.Meta
