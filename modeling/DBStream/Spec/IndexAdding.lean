import DBStream.Spec.KeyCalls
import Mathlib.Data.List.Nodup
import Mathlib.Data.List.Perm.Subperm

/-!
# What `addIndex` accepts

`addIndex` makes a key, for a name that is free and columns that are there and may be in a key, and
refuses everything else (`addIndex_ok`, `addIndex_refused`).  The search for a name ends: there are
more candidates than keys (`indexNameOf_ok`).
-/

namespace DBStream.Native.Meta

/-! ## Names -/

/-- What `nameCompare` compares of a name. -/
def nameKey (caseSensitive : Bool) (name : String) : String :=
  if caseSensitive then name else name.toLower

theorem nameEq_iff {caseSensitive : Bool} {a b : String} :
    nameEq caseSensitive a b = true ↔ nameKey caseSensitive a = nameKey caseSensitive b := by
  cases caseSensitive <;> simp [nameEq, nameKey]

theorem nameKey_numbered {caseSensitive : Bool} {column : String} {i j : Nat}
    (h : nameKey caseSensitive (column ++ "_" ++ toString i) =
      nameKey caseSensitive (column ++ "_" ++ toString j)) : i = j := by
  have hlower {s : String} : s.toLower.toList = s.toList.map Char.toLower := String.toList_map
  have hdigits (n : Nat) : (Nat.toDigits 10 n).map Char.toLower = Nat.toDigits 10 n := by
    refine (List.map_congr_left fun c hc => ?_).trans (List.map_id _)
    have hdigit := Nat.isDigit_of_mem_toDigits (by decide) (by decide) hc
    rw [Char.isDigit, Bool.and_eq_true, decide_eq_true_eq, decide_eq_true_eq] at hdigit
    -- the digits are in front of the letters
    refine dif_neg fun hupper => absurd (UInt32.le_trans hupper.1 hdigit.2) ?_
    decide
  have htext : Nat.toDigits 10 i = Nat.toDigits 10 j := by
    have hlist := congrArg String.toList h
    cases caseSensitive with
    | true => simpa [nameKey, String.toList_append] using hlist
    | false =>
      simp only [nameKey, Bool.false_eq_true, if_false, hlower, String.toList_append,
        List.map_append, List.append_assoc, List.append_cancel_left_eq] at hlist
      simpa [hdigits] using hlist
  rw [← Nat.ofDigitChars_ten_toDigits (n := i), htext, Nat.ofDigitChars_ten_toDigits]

variable {t t' t'' : TableMeta} {a : KeyArray} {name indexName : String} {names : List String}
  {ids : List Nat} {mark : ColumnMeta → ColumnMeta}

theorem exists_key_of_getKey (h : (t.getKey a name).isSome) :
    ∃ k ∈ a.keys, nameKey t.caseSensitive k.2 = nameKey t.caseSensitive name := by
  unfold TableMeta.getKey at h
  split at h
  case h_1 id hid =>
    obtain ⟨hlt, heq, -⟩ := List.findIdx?_eq_some_iff_getElem.mp hid
    exact ⟨_, List.getElem_mem hlt, nameEq_iff.mp heq⟩
  case h_2 => cases h

private theorem exists_key_of_hasKey (h : t.hasKey name = true) :
    ∃ k ∈ t.m_indexs.keys ++ t.m_uniqueKeys.keys,
      nameKey t.caseSensitive k.2 = nameKey t.caseSensitive name := by
  rcases Bool.or_eq_true_iff.mp h with h | h
  · obtain ⟨k, hk, heq⟩ := exists_key_of_getKey h
    exact ⟨k, List.mem_append_left _ hk, heq⟩
  · obtain ⟨k, hk, heq⟩ := exists_key_of_getKey h
    exact ⟨k, List.mem_append_right _ hk, heq⟩

theorem indexNameOf_ok (t : TableMeta) (indexName column : String) :
    ∃ name, t.indexNameOf indexName column = .ok name := by
  unfold TableMeta.indexNameOf
  split
  · exact ⟨_, rfl⟩
  · split
    · exact ⟨_, rfl⟩
    · dsimp only
      generalize hcandidates : (List.range (t.m_indexs.keys.length + t.m_uniqueKeys.keys.length + 1)).map
        (fun i => column ++ "_" ++ toString (i + 2)) = candidates
      cases hfind : candidates.find? fun name => !t.hasKey name with
      | some name => exact ⟨name, rfl⟩
      | none =>
        have hnodup : (candidates.map (nameKey t.caseSensitive)).Nodup := by
          rw [← hcandidates, List.map_map]
          exact List.nodup_range.map fun i j hij => Nat.add_right_cancel (nameKey_numbered hij)
        have hsub : candidates.map (nameKey t.caseSensitive) ⊆
            (t.m_indexs.keys ++ t.m_uniqueKeys.keys).map fun k => nameKey t.caseSensitive k.2 := by
          intro n hn
          obtain ⟨name, hname, rfl⟩ := List.mem_map.mp hn
          have htaken : t.hasKey name = true := by
            simpa using List.find?_eq_none.mp hfind name hname
          obtain ⟨k, hk, heq⟩ := exists_key_of_hasKey htaken
          exact List.mem_map.mpr ⟨k, hk, heq⟩
        have hle := (hnodup.subperm hsub).length_le
        rw [← hcandidates] at hle
        simp only [List.length_map, List.length_range, List.length_append] at hle
        omega

/-! ## Columns -/

/-- The numbers of the columns with some names. -/
def TableMeta.columnIds (t : TableMeta) (names : List String) : Option (List Nat) :=
  names.mapM fun name => (t.getColumn name).map ColumnMeta.m_columnIndex

theorem Remarked.getColumn (h : Remarked t t') (name : String) :
    (t'.getColumn name).map unmarked = (t.getColumn name).map unmarked := by
  have hfind (t₁ : TableMeta) : (t₁.getColumn name).map unmarked = (t₁.m_columns.map unmarked).find?
      fun c => nameEq t₁.caseSensitive c.m_columnName name := by
    rw [List.find?_map]
    rfl
  rw [hfind, hfind, h.columns]
  obtain ⟨columns, rfl, -⟩ := h
  rfl

theorem Remarked.columnIds (h : Remarked t t') (names : List String) :
    t'.columnIds names = t.columnIds names := by
  unfold TableMeta.columnIds
  congr 1
  funext name
  have hindex := congrArg (Option.map ColumnMeta.m_columnIndex) (h.getColumn name)
  rwa [Option.map_map, Option.map_map] at hindex

theorem markColumns_eq (hmark : Marks mark) (t : TableMeta) (names : List String) :
    ∃ t', TableMeta.markColumns mark t names = .ok (t.columnIds names, t') ∧ Remarked t t' := by
  induction names generalizing t with
  | nil => exact ⟨t, rfl, .refl t⟩
  | cons name names ih =>
    rw [TableMeta.markColumns, TableMeta.columnIds, List.mapM_cons, TableMeta.getColumn,
      List.find?_eq_bind_findIdx?_getElem?]
    cases hi : t.m_columns.findIdx? fun c => nameEq t.caseSensitive c.m_columnName name with
    | none => exact ⟨t, rfl, .refl t⟩
    | some i =>
      obtain ⟨hlt, -, -⟩ := List.findIdx?_eq_some_iff_getElem.mp hi
      have hget : t.m_columns[i]? = some t.m_columns[i] := List.getElem?_eq_getElem hlt
      have hstep := remarked_modify t hmark i
      obtain ⟨t', hrest, hmarked⟩ := ih { t with m_columns := t.m_columns.modify i mark }
      refine ⟨t', ?_, hstep.trans hmarked⟩
      dsimp only
      rw [tableAt_of_getElem? hget, Exec.ok_bind, hrest, hstep.columnIds, Option.bind_some, hget]
      simp only [Exec.ok_bind, TableMeta.columnIds, Option.map_some, Option.bind_eq_bind,
        Option.bind_some]
      cases List.mapM (fun name => (t.getColumn name).map ColumnMeta.m_columnIndex) names <;> rfl

/-! ## `addIndex` -/

/-- What `addIndex` asks for: a name that is free or left to it, and from 1 to 255 columns that are
    there and may be in a key. -/
structure Addable (t : TableMeta) (indexName : String) (columns : List String) : Prop where
  nonempty : columns ≠ []
  count : columns.length < 256
  free : indexName ≠ "" → t.hasKey indexName = false
  indexable : ∃ ids types, t.columnIds columns = some ids ∧ keyTypes t.types ids = some types

theorem marks_added (kind : KeyType) : Marks fun c : ColumnMeta =>
    if kind = .UNIQUE_KEY then { c with m_isUnique := true } else { c with m_isIndex := true } := by
  intro c
  split <;> rfl

theorem addIndex_refused (kind : KeyType) {columns : List String}
    (h : ¬Addable t indexName columns) :
    ∃ t', t.addIndex indexName columns kind = .ok (-1, t') ∧ Remarked t t' := by
  unfold TableMeta.addIndex
  by_cases hcount : 256 ≤ columns.length
  · exact ⟨t, by rw [if_pos hcount]; rfl, .refl t⟩
  rw [if_neg hcount]
  cases columns with
  | nil => exact ⟨t, rfl, .refl t⟩
  | cons column columns =>
    dsimp only [Exec.pure_eq, Exec.ok_bind]
    split
    · exact ⟨t, rfl, .refl t⟩
    split
    · exact ⟨t, rfl, .refl t⟩
    case isFalse hfree =>
      obtain ⟨t₁, hmark, hmarked⟩ := markColumns_eq (marks_added kind) t (column :: columns)
      rw [hmark, Exec.ok_bind]
      cases hids : t.columnIds (column :: columns) with
      | none => exact ⟨t₁, rfl, hmarked⟩
      | some ids =>
        obtain ⟨name, hname⟩ := indexNameOf_ok t₁ indexName column
        dsimp only
        rw [hname, Exec.ok_bind, createUnionKey_eq, hmarked.types]
        cases htypes : keyTypes t.types ids with
        | none => exact ⟨t₁, rfl, hmarked⟩
        | some types =>
          refine absurd ⟨List.cons_ne_nil _ _, by omega, fun hne => ?_, ids, types, hids, htypes⟩ h
          exact Bool.eq_false_iff.mpr fun hhas => hfree ⟨hne, hhas⟩

theorem Remarked.keyArray (h : Remarked t t') (kind : KeyType) : t'.keyArray kind = t.keyArray kind := by
  obtain ⟨columns, rfl, -⟩ := h
  cases kind <;> rfl

theorem Remarked.indexNameOf (h : Remarked t t') (indexName column : String) :
    t'.indexNameOf indexName column = t.indexNameOf indexName column := by
  obtain ⟨columns, rfl, -⟩ := h
  rfl

/-- What `addIndex` does to a table that can have the key: the marks of the columns, and the key. -/
theorem addIndex_marks {kind : KeyType} (hkind : kind ≠ .PRIMARY_KEY) {column : String}
    {columns : List String} (h : Addable t indexName (column :: columns)) :
    ∃ ids key name t₁ t₂, t.columnIds (column :: columns) = some ids ∧
      t.createUnionKey t.m_indexs.keys.length kind ids = some key ∧
      t.indexNameOf indexName column = .ok name ∧
      TableMeta.markColumns (fun c => if kind = .UNIQUE_KEY then { c with m_isUnique := true }
        else { c with m_isIndex := true }) t (column :: columns) = .ok (some ids, t₁) ∧
      ids.foldlM (fun t id => t.modifyAt id fun c => { c with m_isIndex := true }) t₁ = .ok t₂ ∧
      Remarked t t₂ ∧ t.addIndex indexName (column :: columns) kind =
        .ok (0, t₂.setKeyArray { keys := t.keys kind ++ [(some key, name)] } kind) := by
  obtain ⟨ids, types, hids, htypes⟩ := h.indexable
  obtain ⟨name, hname⟩ := indexNameOf_ok t indexName column
  obtain ⟨t₁, hmark, hmarked⟩ := markColumns_eq (marks_added kind) t (column :: columns)
  have hkey (t₁ : TableMeta) (hmarked : Remarked t t₁) : t₁.createUnionKey
      t.m_indexs.keys.length kind ids = some (keyOn t.m_indexs.keys.length kind types ids) := by
    rw [createUnionKey_eq, hmarked.types, htypes]
    rfl
  obtain ⟨hcolumns, hinfo⟩ := keyOn_inside t.m_indexs.keys.length kind htypes
  have hinside : ∀ id ∈ ids, id < t₁.columnsCount := by
    intro id hid
    rw [← hcolumns] at hid
    obtain ⟨c, hc, rfl⟩ := List.mem_map.mp hid
    obtain ⟨type, htype, -⟩ := Option.map_eq_some_iff.mp (hinfo c hc)
    have hlt := (List.getElem?_eq_some_iff.mp htype).1
    rwa [TableMeta.types, List.length_map, ← TableMeta.columnsCount, ← hmarked.columnsCount] at hlt
  obtain ⟨t₂, hloop, hmarked'⟩ := foldlM_ok
    (f := fun t id => t.modifyAt id fun c => { c with m_isIndex := true })
    (fun t id hid => ⟨_, modifyAt_ok hid _, remarked_modify t (marks_isIndex true) _⟩) hinside
  have hall := hmarked.trans hmarked'
  refine ⟨ids, _, name, t₁, t₂, hids, hkey t (.refl t), hname, by rw [hmark, hids], hloop, hall, ?_⟩
  unfold TableMeta.addIndex
  rw [if_neg (by have := h.count; omega)]
  dsimp only [Exec.pure_eq, Exec.ok_bind]
  have hfree : ¬(indexName ≠ "" ∧ t.hasKey indexName = true) := fun hboth =>
    Bool.false_ne_true ((h.free hboth.1).symm.trans hboth.2)
  have hindexs : t₁.m_indexs = t.m_indexs := hmarked.keyArray .INDEX
  rw [if_neg hkind, if_neg hfree, hmark, Exec.ok_bind, hids]
  dsimp only
  rw [hmarked.indexNameOf, hname, Exec.ok_bind, hindexs, hkey t₁ hmarked]
  dsimp only
  rw [hloop, Exec.ok_bind]
  have huniqueKeys : t₂.m_uniqueKeys = t.m_uniqueKeys := hall.keyArray .UNIQUE_KEY
  have hindexs : t₂.m_indexs = t.m_indexs := hall.keyArray .INDEX
  cases kind with
  | PRIMARY_KEY => exact absurd rfl hkind
  | UNIQUE_KEY =>
    rw [if_pos rfl, huniqueKeys]
    rfl
  | INDEX =>
    rw [if_neg (by decide), hindexs]
    rfl

theorem addIndex_ok {kind : KeyType} (hkind : kind ≠ .PRIMARY_KEY) {column : String}
    {columns : List String} (h : Addable t indexName (column :: columns)) :
    ∃ ids key name t', t.columnIds (column :: columns) = some ids ∧
      t.createUnionKey t.m_indexs.keys.length kind ids = some key ∧
      t.indexNameOf indexName column = .ok name ∧ Remarked t t' ∧
      t.addIndex indexName (column :: columns) kind =
        .ok (0, t'.setKeyArray { keys := t.keys kind ++ [(some key, name)] } kind) := by
  obtain ⟨ids, key, name, -, t', hids, hkey, hname, -, -, hmarked, hadd⟩ := addIndex_marks hkind h
  exact ⟨ids, key, name, t', hids, hkey, hname, hmarked, hadd⟩

end DBStream.Native.Meta
