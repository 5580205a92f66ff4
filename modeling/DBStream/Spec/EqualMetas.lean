import DBStream.Native.MetaData

/-!
# Equal metadata

`operator==` of two keys compares the numbers of their columns only, and that of two tables needs a
primary key on both sides.
-/

namespace DBStream.Native.Meta

/-! ## Keys -/

theorem UnionKeyMeta.eq_iff (k dest : UnionKeyMeta) :
    k.eq dest = true ↔ k.columnInfo.length = dest.columnInfo.length := by
  have hsize : (decide (memSize k.columnInfo.length ≠ 0)).toNat = 1 := by
    rw [decide_eq_true (by simp [memSize])]
    rfl
  have htake : ∀ k : UnionKeyMeta, k.bytes.take 1 = [UInt8.ofNat k.columnInfo.length] := by
    intro k
    rfl
  simp only [UnionKeyMeta.eq, hsize, htake]
  constructor
  · intro h
    by_contra hne
    rw [if_pos (.inl hne)] at h
    cases h
  · intro h
    rw [h, if_neg (by simp)]

/-- Two keys at the same place, or what is missing there. -/
abbrev KeyPair := Option UnionKeyMeta × Option UnionKeyMeta

/-- Both keys are there, with the same number of columns. -/
def SameCount (p : KeyPair) : Prop :=
  ∃ k d, p = (some k, some d) ∧ k.columnInfo.length = d.columnInfo.length

/-- Both keys are there, with different numbers of columns. -/
def OtherCount (p : KeyPair) : Prop :=
  ∃ k d, p = (some k, some d) ∧ k.columnInfo.length ≠ d.columnInfo.length

/-- The comparison of keys at one place after the other. -/
def eqPairs : List KeyPair → Option Bool
  | [] => some true
  | (some k, some d) :: pairs => if k.eq d then eqPairs pairs else some false
  | (_, _) :: _ => none

theorem eqPairs_cons (k d : UnionKeyMeta) (pairs : List KeyPair) :
    eqPairs ((some k, some d) :: pairs) = if k.eq d then eqPairs pairs else some false := rfl

private theorem eqPairs_append (front rest : List KeyPair) :
    eqPairs (front ++ rest) = (eqPairs front).bind fun b => if b then eqPairs rest else some false := by
  induction front with
  | nil => rfl
  | cons p front ih =>
    rcases p with ⟨_ | k, _ | d⟩
    · rfl
    · rfl
    · rfl
    · rw [List.cons_append, eqPairs_cons, eqPairs_cons, ih]
      split <;> rfl

private theorem eqPairs_of_same {pairs : List KeyPair} (h : ∀ p ∈ pairs, SameCount p) :
    eqPairs pairs = some true := by
  induction pairs with
  | nil => rfl
  | cons p pairs ih =>
    obtain ⟨⟨k, d, rfl, hcount⟩, hpairs⟩ := List.forall_mem_cons.mp h
    rw [eqPairs_cons, if_pos ((k.eq_iff d).mpr hcount), ih hpairs]

private theorem same_of_eqPairs {pairs : List KeyPair} (h : eqPairs pairs = some true) :
    ∀ p ∈ pairs, SameCount p := by
  induction pairs with
  | nil => simp
  | cons p pairs ih =>
    rcases p with ⟨_ | k, _ | d⟩
    · cases h
    · cases h
    · cases h
    · rw [eqPairs_cons] at h
      split at h
      · exact List.forall_mem_cons.mpr ⟨⟨k, d, rfl, (k.eq_iff d).mp ‹_›⟩, ih h⟩
      · cases h

theorem eqPairs_of_other {front rest : List KeyPair} {p : KeyPair}
    (hfront : ∀ q ∈ front, q.1.isSome ∧ q.2.isSome) (hp : OtherCount p) :
    eqPairs (front ++ p :: rest) = some false := by
  induction front with
  | nil =>
    obtain ⟨k, d, rfl, hcount⟩ := hp
    rw [List.nil_append, eqPairs_cons, if_neg (mt (k.eq_iff d).mp hcount)]
  | cons q front ih =>
    obtain ⟨⟨hq₁, hq₂⟩, hrest⟩ := List.forall_mem_cons.mp hfront
    rcases q with ⟨_ | k, _ | d⟩
    · cases hq₁
    · cases hq₁
    · cases hq₂
    · rw [List.cons_append, eqPairs_cons, ih hrest]
      split <;> rfl

theorem other_of_eqPairs {pairs : List KeyPair} (h : eqPairs pairs = some false) :
    ∃ front p rest, pairs = front ++ p :: rest ∧ (∀ q ∈ front, q.1.isSome ∧ q.2.isSome) ∧
      OtherCount p := by
  induction pairs with
  | nil => cases h
  | cons p pairs ih =>
    rcases p with ⟨_ | k, _ | d⟩
    · cases h
    · cases h
    · cases h
    · rw [eqPairs_cons] at h
      split at h
      · obtain ⟨front, p, rest, rfl, hfront, hp⟩ := ih h
        exact ⟨(some k, some d) :: front, p, rest, rfl,
          List.forall_mem_cons.mpr ⟨⟨rfl, rfl⟩, hfront⟩, hp⟩
      · exact ⟨[], _, pairs, rfl, by simp, k, d, rfl, mt (k.eq_iff d).mpr ‹_›⟩

/-- The keys that the code can tell: all are there and equal, or two have different numbers of
    columns, and none is missing in front of them. -/
def Told (pairs : List KeyPair) : Prop :=
  (∀ p ∈ pairs, p.1.isSome ∧ p.1 = p.2) ∨
    ∃ front p rest, pairs = front ++ p :: rest ∧ (∀ q ∈ front, q.1.isSome ∧ q.2.isSome) ∧
      OtherCount p

theorem told_iff (pairs : List KeyPair) :
    (∃ b, eqPairs pairs = some b ∧ (b = true ↔ ∀ p ∈ pairs, p.1 = p.2)) ↔ Told pairs := by
  constructor
  · rintro ⟨b, hb, hequal⟩
    cases b with
    | true =>
      refine .inl fun p hp => ⟨?_, hequal.mp rfl p hp⟩
      obtain ⟨k, d, rfl, -⟩ := same_of_eqPairs hb p hp
      rfl
    | false => exact .inr (other_of_eqPairs hb)
  · rintro (hequal | ⟨front, p, rest, rfl, hfront, hp⟩)
    · refine ⟨true, eqPairs_of_same fun p hp => ?_, fun _ p hp => (hequal p hp).2, fun _ => rfl⟩
      obtain ⟨hsome, heq⟩ := hequal p hp
      obtain ⟨k, hk⟩ := Option.isSome_iff_exists.mp hsome
      exact ⟨k, k, Prod.ext hk (heq.symm.trans hk), rfl⟩
    · refine ⟨false, eqPairs_of_other hfront hp, fun h => (Bool.false_ne_true h).elim, fun h => ?_⟩
      obtain ⟨k, d, rfl, hcount⟩ := hp
      have heq := h (some k, some d) (by simp)
      exact absurd (congrArg (fun k => k.columnInfo.length) (Option.some.inj heq)) hcount

/-! ## Tables -/

namespace CollatedTable

variable {t dest : CollatedTable}

/-- The keys at the same places: the primary keys, the unique keys, the indexes. -/
def keyPairs (t dest : CollatedTable) : List KeyPair :=
  (t.m_primaryKey, dest.m_primaryKey) ::
    ((t.m_uniqueKeys.keys.map Prod.fst).zip (dest.m_uniqueKeys.keys.map Prod.fst) ++
      (t.m_indexs.keys.map Prod.fst).zip (dest.m_indexs.keys.map Prod.fst))

/-- Everything that is compared in front of the keys is equal. -/
structure Front (t dest : CollatedTable) : Prop where
  caseSensitive : t.caseSensitive = dest.caseSensitive
  dbName : nameEq t.caseSensitive t.m_dbName dest.m_dbName = true
  tableName : nameEq t.caseSensitive t.m_tableName dest.m_tableName = true
  charset : t.m_charset = dest.m_charset
  collate : t.m_collate = dest.m_collate
  fixedColumnCount : t.m_fixedColumnCount = dest.m_fixedColumnCount
  indexCount : t.m_indexs.keys.length = dest.m_indexs.keys.length
  uniqueKeysCount : t.m_uniqueKeys.keys.length = dest.m_uniqueKeys.keys.length
  columns : t.m_columns = dest.m_columns

/-- Two tables of one name comparison with the same names, charset, columns and keys. -/
structure Same (t dest : CollatedTable) : Prop where
  caseSensitive : t.caseSensitive = dest.caseSensitive
  dbName : nameEq t.caseSensitive t.m_dbName dest.m_dbName = true
  tableName : nameEq t.caseSensitive t.m_tableName dest.m_tableName = true
  charset : t.m_charset = dest.m_charset
  columns : t.m_columns = dest.m_columns
  primaryKey : t.m_primaryKey = dest.m_primaryKey
  uniqueKeys : t.m_uniqueKeys.keys.map Prod.fst = dest.m_uniqueKeys.keys.map Prod.fst
  indexs : t.m_indexs.keys.map Prod.fst = dest.m_indexs.keys.map Prod.fst

theorem eq_of_not_front (h : ¬ Front t dest) : t.eq dest = .ok false := by
  unfold eq
  split
  · rfl
  split
  · rfl
  split
  · rfl
  split
  · rfl
  · rename_i hcase hfields _ hcolumns
    simp only [not_or, Bool.not_eq_false, ne_eq, not_not] at hcase hfields hcolumns
    obtain ⟨hdb, htable, hcharset, hcollate, hfixed, hindex, hunique⟩ := hfields
    exact absurd ⟨hcase, hdb, htable, hcharset, hcollate, hfixed, hindex, hunique, hcolumns⟩ h

theorem eqKeys_eq_ok {keys dests : List (Option UnionKeyMeta × String)}
    (h : keys.length = dests.length) (b : Bool) :
    eqKeys keys dests = .ok b ↔
      eqPairs ((keys.map Prod.fst).zip (dests.map Prod.fst)) = some b := by
  induction keys generalizing dests with
  | nil => simp [eqKeys, eqPairs]
  | cons k keys ih =>
    obtain _ | ⟨d, dests⟩ := dests
    · cases h
    · obtain ⟨k, kname⟩ := k
      rcases k with _ | k <;> rcases d with _ | d <;>
        simp only [eqKeys, eqPairs, List.map_cons, List.zip_cons_cons, reduceCtorEq]
      split
      · exact ih (Nat.succ_inj.mp h)
      · simp

theorem eq_of_front (h : Front t dest) (b : Bool) :
    t.eq dest = .ok b ↔ eqPairs (keyPairs t dest) = some b := by
  have hunique := eqKeys_eq_ok h.uniqueKeysCount
  have hindex := eqKeys_eq_ok h.indexCount b
  unfold eq keyPairs
  rw [if_neg (not_not_intro h.caseSensitive), if_neg, if_neg, if_neg (not_not_intro h.columns)]
  rotate_left
  · exact not_not_intro (congrArg List.length h.columns)
  · simp only [h.dbName, h.tableName, h.charset, h.collate, h.fixedColumnCount, h.indexCount,
      h.uniqueKeysCount]
    simp
  cases t.m_primaryKey with
  | none => simp [deref, eqPairs, bind, Except.bind]
  | some k =>
    cases dest.m_primaryKey with
    | none => simp [deref, eqPairs, bind, Except.bind]
    | some d =>
      rw [eqPairs_cons, eqPairs_append]
      by_cases hpk : k.eq d
      · simp only [deref_some, Exec.ok_bind, hpk, if_true, Bool.true_eq_false, if_false, Exec.pure_eq]
        cases hkeys : eqKeys t.m_uniqueKeys.keys dest.m_uniqueKeys.keys with
        | error e =>
          cases hpairs : eqPairs ((t.m_uniqueKeys.keys.map Prod.fst).zip
              (dest.m_uniqueKeys.keys.map Prod.fst)) with
          | none => simp [bind, Except.bind]
          | some b' => exact absurd ((hunique b').mpr hpairs) (by simp [hkeys])
        | ok b' =>
          rw [(hunique b').mp hkeys, Exec.ok_bind, Option.bind_some]
          cases b' with
          | true => exact hindex
          | false => simp
      · simp [hpk]

theorem same_iff_of_front (h : Front t dest) :
    Same t dest ↔ ∀ p ∈ keyPairs t dest, p.1 = p.2 := by
  have hzip : ∀ {l l' : List (Option UnionKeyMeta)}, l.length = l'.length →
      (l = l' ↔ ∀ p ∈ l.zip l', p.1 = p.2) := by
    intro l l' hlength
    constructor
    · rintro rfl p hp
      obtain ⟨i, hi, rfl⟩ := List.getElem_of_mem hp
      rw [List.getElem_zip]
    · intro hall
      refine List.ext_getElem hlength fun i hi hi' => ?_
      exact hall (l[i], l'[i]) (List.mem_iff_getElem.mpr ⟨i, by simp [hi, hi'], by simp⟩)
  rw [keyPairs, List.forall_mem_cons, List.forall_mem_append,
    ← hzip (by simp [h.uniqueKeysCount]), ← hzip (by simp [h.indexCount])]
  constructor
  · intro hsame
    exact ⟨hsame.primaryKey, hsame.uniqueKeys, hsame.indexs⟩
  · rintro ⟨hprimary, hunique, hindexs⟩
    exact ⟨h.caseSensitive, h.dbName, h.tableName, h.charset, h.columns, hprimary, hunique, hindexs⟩

/-- Where `operator==` is right: the keys can be told if it comes to them, and else something that
    counts is different. -/
def Met (t dest : CollatedTable) : Prop :=
  (Front t dest → Told (keyPairs t dest)) ∧ (¬ Front t dest → ¬ Same t dest)

/-- `operator==` has an answer, which is whether the tables are the same, exactly if the keys can
    be told. -/
theorem eq_same_iff (t dest : CollatedTable) :
    (∃ b, t.eq dest = .ok b ∧ (b = true ↔ Same t dest)) ↔ Met t dest := by
  by_cases h : Front t dest
  · simp only [eq_of_front h, same_iff_of_front h, told_iff, Met, h, true_imp_iff, not_true,
      false_imp_iff, and_true]
  · rw [eq_of_not_front h]
    constructor
    · rintro ⟨b, hb, hsame⟩
      obtain rfl := Except.ok.inj hb
      exact ⟨fun hfront => absurd hfront h, fun _ htrue => Bool.false_ne_true (hsame.mpr htrue)⟩
    · intro hmet
      exact ⟨false, rfl, fun hfalse => (Bool.false_ne_true hfalse).elim,
        fun htrue => absurd htrue (hmet.2 h)⟩

def twoColumns : List ColumnMeta :=
  [{ m_columnType := .T_INT32, m_columnName := "a", m_isIndex := true },
    { m_columnType := .T_INT32, m_columnName := "b", m_columnIndex := 1, m_isIndex := true }]

/-- A key of both columns in this order. -/
def pairKey (keyType : KeyType) (columnIds : List Nat) : UnionKeyMeta :=
  { size := 8, fixed := true, keyType := keyType, keyId := 0, varColumnCount := 0
    columnInfo := columnIds.map fun id => ⟨ColumnType.code .T_INT32, id⟩ }

/-- A table with the index `k` of both columns. -/
def pairTable (primaryKey : Option UnionKeyMeta) (columnIds : List Nat) : CollatedTable :=
  { m_columns := twoColumns, m_fixedColumnCount := 2, m_primaryKey := primaryKey
    m_indexs := { keys := [(some (pairKey .INDEX columnIds), "k")] } }

/-- The order of the columns of an index is not noticed, and a table without a primary key is not
    compared. -/
theorem eq_not_structural :
    (pairTable (some (pairKey .PRIMARY_KEY [0, 1])) [0, 1]).eq
        (pairTable (some (pairKey .PRIMARY_KEY [0, 1])) [1, 0]) = .ok true ∧
      ¬ Same (pairTable (some (pairKey .PRIMARY_KEY [0, 1])) [0, 1])
        (pairTable (some (pairKey .PRIMARY_KEY [0, 1])) [1, 0]) ∧
      (pairTable none [0, 1]).eq (pairTable none [0, 1]) = .error .nullDeref :=
  ⟨by decide, fun h => absurd h.indexs (by decide), by decide⟩

end CollatedTable

end DBStream.Native.Meta
