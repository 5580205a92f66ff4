import DBStream.Spec.KeyCalls

/-!
# Dropped keys, and the ids of keys

A drop leaves the other keys as they were if and only if it drops the last key of its array
(`dropsExactly_iff`).  `addIndex` numbers the keys of both arrays by the count of one of them, so the id
of a new key is its place only where that count is (`NumbersPlace`).  `drops_and_ids` is about the tables
that calls reach.
-/

namespace DBStream.Native.Meta

/-- Every key is written, and its columns are columns of the table. -/
def KeysInside (t : TableMeta) : Prop :=
  ∀ kind, ∀ k ∈ t.keys kind, ∃ key : UnionKeyMeta, k.1 = some key ∧
    ∀ c ∈ key.columnInfo, c.columnId < t.columnsCount

/-- The id of each key is its place. -/
def KeyIds (t : TableMeta) : Prop :=
  ∀ kind i (key : UnionKeyMeta) name, (t.keys kind)[i]? = some (some key, name) → key.keyId = i

/-- The same key, perhaps with another id. -/
def SameKey (k k' : Option UnionKeyMeta × String) : Prop :=
  k.2 = k'.2 ∧ ∃ (key : UnionKeyMeta) (id : Nat), k'.1 = some key ∧ k.1 = some { key with keyId := id }

/-- All keys are as they were, without the one at `idx` of a kind. -/
def LeavesOthers (t t' : TableMeta) (kind : KeyType) (idx : Nat) : Prop :=
  List.Forall₂ SameKey (t'.keys kind) ((t.keys kind).eraseIdx idx) ∧
    ∀ other, other ≠ kind → t'.keys other = t.keys other

/-- A call drops the key and nothing else. -/
def DropsExactly (t : TableMeta) (call : KeyCall) (kind : KeyType) (idx : Nat) : Prop :=
  ∃ t', t.keyCall call = .ok (0, t') ∧ LeavesOthers t t' kind idx

/-- The count of the indexes, of which `addIndex` makes the id of a new key, is the place of the key. -/
def NumbersPlace (t : TableMeta) : KeyCall → Prop
  | .addIndex _ _ .UNIQUE_KEY => t.m_indexs.keys.length % 2 ^ 8 = t.m_uniqueKeys.keys.length
  | .addIndex _ _ .INDEX => t.m_indexs.keys.length < 2 ^ 8
  | _ => True

/-- A call that drops a last key, or gives a new key the id that is its place. -/
def Kept (t : TableMeta) (call : KeyCall) : Prop := DropsLast t call ∧ NumbersPlace t call

/-- Successful calls that satisfy `P` on the table they are made on. -/
inductive KeyRun (P : TableMeta → KeyCall → Prop) (t₀ : TableMeta) : TableMeta → Prop
  | start : KeyRun P t₀ t₀
  | call {t t' : TableMeta} {c : KeyCall} : KeyRun P t₀ t → P t c → t.keyCall c = .ok (0, t') →
      KeyRun P t₀ t'

variable {t t' t₀ : TableMeta} {call : KeyCall} {kind : KeyType} {idx : Nat} {a : KeyArray}

/-! ## Drops -/

theorem not_dropsExactly (h : t.dropped call = some (kind, idx)) (hinner : idx + 1 < (t.keys kind).length) :
    ¬DropsExactly t call kind idx := by
  rintro ⟨t', hcall, hothers, -⟩
  obtain ⟨hkind, -, f, g, hf, hg, heq⟩ := keyCall_of_dropped h
  rw [heq] at hcall
  obtain ⟨⟨a, t₁⟩, hdrop, hret⟩ := Exec.of_bind hcall
  cases hret
  rw [keys_eq_keyArray] at hinner
  have hslot : (none, "") ∈ a.keys := by
    obtain ⟨-, ⟨hone, -⟩ | ⟨-, hkeys⟩⟩ := dropKeyAt_cases hf hg hdrop
    · omega
    · exact withoutKey_inner hinner hkeys
  rw [keys_setKeyArray t₁ a hkind] at hothers
  obtain ⟨i, hi, hget⟩ := List.getElem_of_mem hslot
  obtain ⟨-, key, id, -, hsome⟩ := List.Forall₂.get hothers hi (hothers.length_eq ▸ hi)
  rw [List.get_eq_getElem, hget] at hsome
  cases hsome

theorem sameKey_self {keys : List (Option UnionKeyMeta × String)} (h : ∀ k ∈ keys, k.1 ≠ none) :
    List.Forall₂ SameKey keys keys := by
  rw [List.forall₂_same]
  intro k hk
  obtain ⟨key, hkey⟩ := Option.ne_none_iff_exists'.mp (h k hk)
  exact ⟨rfl, key, key.keyId, hkey, hkey⟩

theorem dropsExactly_last (hinside : KeysInside t) (h : t.dropped call = some (kind, idx))
    (hlast : idx + 1 = (t.keys kind).length) : DropsExactly t call kind idx := by
  obtain ⟨hkind, -, f, g, hf, hg, heq⟩ := keyCall_of_dropped h
  have hwritten : ∀ k ∈ t.keys kind, k.1 ≠ none := by
    intro k hk
    obtain ⟨key, hkey, -⟩ := hinside kind k hk
    rw [hkey]
    exact nofun
  have hcolumns : ∀ k ∈ t.keys kind, ∀ key ∈ k.1, ∀ c ∈ key.columnInfo, c.columnId < t.columnsCount := by
    intro k hk key hkey
    obtain ⟨key', hkey', hlt⟩ := hinside kind k hk
    cases hkey.symm.trans hkey'
    exact hlt
  have herase : (t.keys kind).eraseIdx idx = (t.keys kind).dropLast := by
    rw [List.dropLast_eq_eraseIdx hlast]
  rw [keys_eq_keyArray] at hwritten hcolumns hlast
  obtain ⟨⟨a, t₁⟩, hdrop⟩ := dropKeyAt_ok hf hg hwritten hcolumns hlast
  obtain ⟨hmarks, hkeys⟩ := dropKeyAt_last hf hg hlast hdrop
  refine ⟨t₁.setKeyArray a kind, ?_, ?_, fun other hne => ?_⟩
  · rw [heq, hdrop]
    rfl
  · rw [keys_setKeyArray t₁ a hkind, herase, keys_eq_keyArray, hkeys]
    exact sameKey_self fun k hk => hwritten k (List.dropLast_subset _ hk)
  · rw [keys_setKeyArray_of_ne t₁ a hne, hmarks.keys]

private theorem dropsExactly_iff (hinside : KeysInside t) (h : t.dropped call = some (kind, idx)) :
    DropsExactly t call kind idx ↔ idx + 1 = (t.keys kind).length := by
  obtain ⟨-, hlt, -⟩ := keyCall_of_dropped h
  refine ⟨fun hexact => ?_, dropsExactly_last hinside h⟩
  by_contra hne
  exact not_dropsExactly h (by omega) hexact

/-! ## Steps -/

theorem createUnionKey_inside {keyId : Nat} {keyType : KeyType} {columnIds : List Nat}
    {key : UnionKeyMeta} (h : t.createUnionKey keyId keyType columnIds = some key) :
    key.keyId = keyId % 2 ^ 8 ∧ ∀ c ∈ key.columnInfo, c.columnId < t.columnsCount := by
  rw [createUnionKey_eq] at h
  obtain ⟨types, htypes, rfl⟩ := Option.map_eq_some_iff.mp h
  refine ⟨rfl, fun c hc => ?_⟩
  obtain ⟨type, hget, -⟩ := Option.map_eq_some_iff.mp ((keyOn_inside _ _ htypes).2 c hc)
  have hlt := (List.getElem?_eq_some_iff.mp hget).1
  rwa [TableMeta.types, List.length_map] at hlt

theorem KeyStep.mem_keys (h : KeyStep t call t') {k : Option UnionKeyMeta × String}
    (hk : k ∈ t'.keys kind) : (∃ k₀ ∈ t.keys kind, k.1 = k₀.1) ∨
      ∃ (keyId : Nat) (columnIds : List Nat) (key : UnionKeyMeta), columnIds ≠ [] ∧
        columnIds.length < 256 ∧ t.createUnionKey keyId kind columnIds = some key ∧ k.1 = some key := by
  obtain ⟨changed, hchange, hothers⟩ := h.keys
  by_cases hkind : kind = changed
  · subst hkind
    generalize t'.keys kind = keys at hchange hk
    cases hchange with
    | create _ _ hne hlt hkey =>
      rcases List.mem_append.mp hk with hk | hk
      · exact .inl ⟨k, hk, rfl⟩
      · cases List.mem_singleton.mp hk
        exact .inr ⟨_, _, _, hne, hlt, hkey, rfl⟩
    | dropLast => exact .inl ⟨k, List.dropLast_subset _ hk, rfl⟩
    | rename hget =>
      rcases List.mem_or_eq_of_mem_set hk with hk | rfl
      · exact .inl ⟨k, hk, rfl⟩
      · exact .inl ⟨_, List.mem_of_getElem? hget, rfl⟩
    | same => exact .inl ⟨k, hk, rfl⟩
  · rw [hothers kind hkind] at hk
    exact .inl ⟨k, hk, rfl⟩

theorem KeyStep.types (h : KeyStep t call t') : t'.types = t.types := types_of_unmarked h.columns

theorem KeysInside.step (hinside : KeysInside t) (h : KeyStep t call t') : KeysInside t' := by
  intro kind k hk
  rw [columnsCount_of_types h.types]
  rcases h.mem_keys hk with ⟨k₀, hk₀, hsame⟩ | ⟨keyId, columnIds, key, -, -, hcreate, hkey⟩
  · rw [hsame]
    exact hinside kind k₀ hk₀
  · exact ⟨key, hkey, (createUnionKey_inside hcreate).2⟩

theorem newKeyId_eq (hcreates : call.creates = some kind) (hfirst : kind = .PRIMARY_KEY →
    t.m_primaryKey = none) (hnumbers : NumbersPlace t call) :
    t.newKeyId kind % 2 ^ 8 = (t.keys kind).length := by
  cases call with
  | createPrimaryKey columns =>
    cases hcreates
    rw [TableMeta.keys, hfirst rfl]
    rfl
  | addIndex indexName columns keyType =>
    cases hcreates
    cases kind with
    | PRIMARY_KEY =>
      rw [TableMeta.keys, hfirst rfl]
      rfl
    | UNIQUE_KEY => exact hnumbers
    | INDEX => exact Nat.mod_eq_of_lt hnumbers
  | dropPrimaryKey => cases hcreates
  | dropUniqueKey ukName => cases hcreates
  | dropIndex indexName => cases hcreates
  | renameIndex oldName newName => cases hcreates

theorem KeyIds.step (hids : KeyIds t) (h : KeyStep t call t') (hnumbers : NumbersPlace t call) :
    KeyIds t' := by
  obtain ⟨changed, hchange, hothers⟩ := h.keys
  intro kind i key name hget
  by_cases hkind : kind = changed
  · subst hkind
    generalize t'.keys kind = keys at hchange hget
    cases hchange with
    | create hcreates hfirst _ _ hkey =>
      rcases Nat.lt_trichotomy i (t.keys kind).length with hlt | rfl | hgt
      · rw [List.getElem?_append_left hlt] at hget
        exact hids kind i key name hget
      · rw [List.getElem?_concat_length] at hget
        cases hget
        rw [(createUnionKey_inside hkey).1]
        exact newKeyId_eq hcreates hfirst hnumbers
      · rw [List.getElem?_eq_none (by rw [List.length_append, List.length_singleton]; omega)] at hget
        cases hget
    | dropLast =>
      obtain ⟨hlt, -⟩ := List.getElem?_eq_some_iff.mp hget
      rw [List.length_dropLast] at hlt
      rw [List.getElem?_dropLast, if_pos hlt] at hget
      exact hids kind i key name hget
    | @rename j k newName hold =>
      by_cases hji : j = i
      · subst hji
        rw [List.getElem?_set_self (List.getElem?_eq_some_iff.mp hold).1] at hget
        obtain ⟨key', name'⟩ := k
        cases hget
        exact hids kind j key name' hold
      · rw [List.getElem?_set_ne hji] at hget
        exact hids kind i key name hget
    | same => exact hids kind i key name hget
  · rw [hothers kind hkind] at hget
    exact hids kind i key name hget

/-! ## Runs -/

theorem KeyRun.kept (h₀ : KeysInside t₀) (hrun : KeyRun Kept t₀ t) :
    KeysInside t ∧ (KeyIds t₀ → KeyIds t) := by
  induction hrun with
  | start => exact ⟨h₀, id⟩
  | call _ hkept hcall ih =>
    have hstep := keyCall_step hkept.1 hcall
    exact ⟨ih.1.step hstep, fun hids => (ih.2 hids).step hstep hkept.2⟩

/-- In the tables that calls reach which drop last keys only, and create a key where the count of the
    indexes is its place, a drop leaves exactly the other keys if and only if it drops the last one, and
    the id of each key is its place. -/
theorem drops_and_ids (h₀ : KeysInside t₀) (hrun : KeyRun Kept t₀ t) :
    (∀ call kind idx, t.dropped call = some (kind, idx) →
      (DropsExactly t call kind idx ↔ idx + 1 = (t.keys kind).length)) ∧ (KeyIds t₀ → KeyIds t) := by
  obtain ⟨hinside, hids⟩ := hrun.kept h₀
  exact ⟨fun call kind idx h => dropsExactly_iff hinside h, hids⟩

theorem keysInside_numbersTable : KeysInside numbersTable := by
  intro kind k hk
  cases kind with
  | PRIMARY_KEY | UNIQUE_KEY | INDEX =>
    cases List.mem_singleton.mp hk
    exact ⟨_, rfl, by decide⟩

theorem keyIds_numbersTable : KeyIds numbersTable := by
  intro kind i key name hget
  have hi := (List.getElem?_eq_some_iff.mp hget).1
  cases kind with
  | PRIMARY_KEY | UNIQUE_KEY | INDEX =>
    obtain rfl : i = 0 := Nat.lt_one_iff.mp hi
    cases hget
    rfl

/-- A second unique key, when there is one index. -/
theorem drops_and_ids_two : ∃ t, KeyRun Kept numbersTable t ∧ t.m_uniqueKeys.keys.length = 2 ∧
    DropsExactly t (.dropUniqueKey "v") .UNIQUE_KEY 1 ∧ KeyIds t := by
  have hkept : Kept numbersTable (.addIndex "v" ["b"] .UNIQUE_KEY) := ⟨nofun, rfl⟩
  have hrun := KeyRun.call .start hkept
    (rfl : numbersTable.keyCall (.addIndex "v" ["b"] .UNIQUE_KEY) = .ok (0, _))
  obtain ⟨hdrops, hids⟩ := drops_and_ids keysInside_numbersTable hrun
  exact ⟨_, hrun, rfl, (hdrops _ _ _ rfl).mpr rfl, hids keyIds_numbersTable⟩

/-- The first of two unique keys is dropped with the slot of the second one, and a third unique key gets
    the id of the second one when there is one index. -/
theorem drops_too_much : KeysInside numbersTable ∧ KeyIds numbersTable ∧
    (∃ t, KeyRun (fun _ _ => True) numbersTable t ∧
      t.dropped (.dropUniqueKey "u") = some (.UNIQUE_KEY, 0) ∧
        ¬DropsExactly t (.dropUniqueKey "u") .UNIQUE_KEY 0) ∧
    ∃ t, KeyRun (fun _ _ => True) numbersTable t ∧ ¬KeyIds t := by
  have hrun₁ := KeyRun.call (P := fun _ _ => True) .start trivial
    (rfl : numbersTable.keyCall (.addIndex "v" ["b"] .UNIQUE_KEY) = .ok (0, _))
  have hrun₂ := KeyRun.call hrun₁ trivial
    (rfl : TableMeta.keyCall _ (.addIndex "w" ["c"] .UNIQUE_KEY) = .ok (0, _))
  refine ⟨keysInside_numbersTable, keyIds_numbersTable,
    ⟨_, hrun₁, rfl, not_dropsExactly rfl (by decide)⟩, ⟨_, hrun₂, fun hids => ?_⟩⟩
  have hid := hids .UNIQUE_KEY 2 _ "w" rfl
  exact absurd hid (by decide)

end DBStream.Native.Meta
