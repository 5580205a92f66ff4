import DBStream.ForStd.Grouping
import DBStream.Native.AppendingIndex
import Mathlib.Data.List.Lex

/-!
# What an index holds

An index is for the record ids of each key in append order, with the keys in the order of their
values.  It holds them after any rows whose keys can be read and which its comparison orders as
their values are (`Orders`).
-/

namespace DBStream.Native

open Grouping

/-! ## The order of keys -/

/-- The number a floating point column stands for, up to its scale: sign and magnitude. -/
def floatValue (t : ColumnType) (d : List UInt8) : Int :=
  let n := LE.nat (d.take t.columnTypeSize)
  if 2 ^ (8 * t.columnTypeSize - 1) ≤ n then 2 ^ (8 * t.columnTypeSize - 1) - (n : Int) else n

/-- The value of a column of a union key. -/
def columnValue (t : ColumnType) (d : List UInt8) : List Int :=
  match t with
  | .T_FLOAT | .T_DOUBLE => [floatValue t d]
  | .T_STRING | .T_BLOB => (d.slice 2 (LE.nat (d.take 2))).map fun b => (b.toNat : Int)
  | t => [intValue t d]

/-- The values of the columns of a union key. -/
def columnValues : List UniqueKeyTypePair → List UInt8 → List (List Int)
  | [], _ => []
  | c :: cs, d => columnValue c.type d :: columnValues cs (UnionKey.skipColumn c.type d)

/-- The value of a key; values are ordered column by column. -/
def keyValue (t : ColumnType) (ukMeta : UnionKeyMeta) (key : Key) : List (List Int) :=
  match t with
  | .T_UNION => columnValues ukMeta.columnInfo (key.drop (if ukMeta.fixed then 0 else 2))
  | .T_BLOB | .T_STRING | .T_BINARY | .T_TEXT => [key.map fun b => (b.toNat : Int)]
  | t => [columnValue t key]

/-- The operators of the index agree with the values of the two keys. -/
structure Orders (F : FloatOps) (t : ColumnType) (ukMeta : UnionKeyMeta) (a b : Key) : Prop where
  compare : ∃ c, AppendingIndex.compareKey F t ukMeta a b = .ok c ∧
    (c < 0 ↔ keyValue t ukMeta a < keyValue t ukMeta b) ∧
    (0 < c ↔ keyValue t ukMeta b < keyValue t ukMeta a)
  greater : AppendingIndex.greaterKey F t ukMeta a b =
    .ok (keyValue t ukMeta b < keyValue t ukMeta a)
  equal : AppendingIndex.equalKey F t a b = decide (a = b)
  separates : keyValue t ukMeta a = keyValue t ukMeta b → a = b

namespace AppendingIndex

variable {F : FloatOps} {t : ColumnType} {ukMeta : UnionKeyMeta} {key : Key}
  {nodes : List (Key × List Nat)} {index : AppendingIndex}

/-! ## One key -/

theorem findGreaterOrEqual_eq (hord : ∀ n ∈ nodes, Orders F t ukMeta n.1 key) :
    findGreaterOrEqual (compareKey F t ukMeta) key nodes =
      .ok (nodes.takeWhile (before (keyValue t ukMeta) key),
        nodes.dropWhile (before (keyValue t ukMeta) key)) := by
  induction nodes with
  | nil => rfl
  | cons x nodes ih =>
    obtain ⟨c, hc, hlt, -⟩ := (hord x List.mem_cons_self).compare
    rw [findGreaterOrEqual, hc, Exec.ok_bind, List.takeWhile_cons, List.dropWhile_cons, before]
    by_cases h : c < 0
    · rw [if_pos h, ih fun n hn => hord n (List.mem_cons_of_mem x hn)]
      simp [hlt.mp h]
    · have hge := mt hlt.mpr h
      simp [h, hge]

theorem appendNode_eq (id : Nat) (hord : ∀ n ∈ nodes, Orders F t ukMeta n.1 key)
    (hord' : ∀ n ∈ nodes, Orders F t ukMeta key n.1) :
    appendNode F t ukMeta key id nodes =
      .ok (add (keyValue t ukMeta) key id nodes, isNew (keyValue t ukMeta) key nodes) := by
  rw [appendNode, findGreaterOrEqual_eq hord, Exec.ok_bind, add_eq, isNew_eq]
  cases hdrop : nodes.dropWhile (before (keyValue t ukMeta) key) with
  | nil => rfl
  | cons x rest =>
    have hmem : x ∈ nodes := (List.dropWhile_sublist _).subset (hdrop ▸ List.mem_cons_self)
    have hge : ¬ keyValue t ukMeta x.1 < keyValue t ukMeta key := by
      have hhead := List.head?_dropWhile_not (before (keyValue t ukMeta) key) nodes
      rw [hdrop] at hhead
      simpa [before] using hhead
    simp only [(hord x hmem).greater, Exec.ok_bind]
    by_cases hgt : keyValue t ukMeta key < keyValue t ukMeta x.1
    · -- a new node in front of `x`
      obtain ⟨c, hc, hlt, -⟩ := (hord' x hmem).compare
      have hc0 : c ≠ 0 := by
        have := hlt.mpr hgt
        omega
      simp [hgt, hc, hc0]
    · have heq : x.1 = key :=
        (hord x hmem).separates (le_antisymm (le_of_not_gt hgt) (le_of_not_gt hge))
      have hequal := (hord' x hmem).equal
      rw [heq] at hequal
      simp [heq, hequal]

/-! ## Rows -/

/-- The keys of a row, in the order in which `append` puts them in. -/
def keysOf (index : AppendingIndex) (r : Row) : Exec (List Key) := do
  let key ← index.keyOf r false
  if r.keyUpdate index.m_ukMeta then return [key, ← index.keyOf r true] else return [key]

/-- The keys of the rows, each with the record id it is for. -/
def eventsOf (index : AppendingIndex) : List (Row × Nat) → Exec (List (Key × Nat))
  | [] => .ok []
  | (r, id) :: rows => do
    let keys ← index.keysOf r
    return keys.map (fun key => (key, id)) ++ (← eventsOf index rows)

def appendAll (F : FloatOps) (index : AppendingIndex) (rows : List (Row × Nat)) :
    Exec AppendingIndex :=
  rows.foldlM (fun index x => index.append F x.1 x.2) index

/-- The operators of the index agree with the values of any two of the keys. -/
def OrdersAll (F : FloatOps) (t : ColumnType) (ukMeta : UnionKeyMeta) (keys : List Key) : Prop :=
  ∀ a ∈ keys, ∀ b ∈ keys, Orders F t ukMeta a b

/-- The index holds the groups of the events. -/
structure Holds (t : ColumnType) (ukMeta : UnionKeyMeta) (events : List (Key × Nat))
    (index : AppendingIndex) : Prop where
  type : index.m_type = t
  keyMeta : index.m_ukMeta = ukMeta
  groups : Groups (keyValue t ukMeta) events index.m_index
  keyCount : index.m_keyCount = index.m_index.length
  varSize : index.m_varSize = (index.m_index.map fun n => index.varSizeOf n.1).sum
  count : (index.m_index.map fun n => n.2.length).sum = events.length

def ofEntries (ukMeta : UnionKeyMeta) (entries : List (Key × List Nat)) : AppendingIndex where
  m_type := typeOf ukMeta
  m_ukMeta := ukMeta
  m_index := entries
  m_allCount := (entries.map fun e => e.2.length).sum
  m_keyCount := entries.length
  m_varSize := (entries.map fun e =>
    varSizeOf { m_type := typeOf ukMeta, m_ukMeta := ukMeta } e.1).sum

theorem OrdersAll.mono {keys keys' : List Key} (hord : OrdersAll F t ukMeta keys)
    (hsub : ∀ k ∈ keys', k ∈ keys) : OrdersAll F t ukMeta keys' :=
  fun a ha b hb => hord a (hsub a ha) b (hsub b hb)

theorem create_holds {index₀ : AppendingIndex} (h : create ukMeta = .ok index₀) :
    Holds (typeOf ukMeta) ukMeta [] index₀ ∧ index₀.m_allCount = 0 := by
  have hnew : index₀ = { m_type := typeOf ukMeta, m_ukMeta := ukMeta } := by
    unfold create at h
    split at h
    · cases h
    · cases h
    · exact (Except.ok.inj h).symm
  rw [hnew]
  exact ⟨⟨rfl, rfl, Groups.nil, rfl, rfl, rfl⟩, rfl⟩

variable {events : List (Key × Nat)} {r : Row} {old : Bool}

theorem Holds.keyOf_eq {index' : AppendingIndex} {events' : List (Key × Nat)}
    (h : Holds t ukMeta events index) (h' : Holds t ukMeta events' index') (r : Row) (old : Bool) :
    index'.keyOf r old = index.keyOf r old := by
  unfold keyOf
  rw [h.type, h'.type, h.keyMeta, h'.keyMeta]

theorem varSizeOf_congr {index' : AppendingIndex} (ht : index.m_type = index'.m_type)
    (hm : index.m_ukMeta = index'.m_ukMeta) (key : Key) :
    index.varSizeOf key = index'.varSizeOf key := by
  rw [varSizeOf, varSizeOf, ht, hm]

theorem Holds.eq_ofEntries (h : Holds (typeOf ukMeta) ukMeta events index)
    (hcount : index.m_allCount = events.length) : index = ofEntries ukMeta index.m_index := by
  have hsize : index.m_varSize = (index.m_index.map fun e =>
      varSizeOf { m_type := typeOf ukMeta, m_ukMeta := ukMeta } e.1).sum := by
    rw [h.varSize]
    exact congrArg List.sum (List.map_congr_left fun n _ => varSizeOf_congr h.type h.keyMeta n.1)
  have htype := h.type
  have hmeta := h.keyMeta
  have hkeys := h.keyCount
  rw [← h.count] at hcount
  cases index
  simp only at htype hmeta hkeys hcount hsize
  rw [htype, hmeta, hkeys, hcount, hsize]
  rfl

/-- One more key of a record in the index. -/
theorem Holds.appendKey (h : Holds t ukMeta events index) (hkey : index.keyOf r old = .ok key)
    (hord : OrdersAll F t ukMeta (key :: events.map Prod.fst)) (id : Nat) :
    ∃ index', index.appendKey F r old id = .ok index' ∧
      Holds t ukMeta (events ++ [(key, id)]) index' ∧ index'.m_allCount = index.m_allCount := by
  have hmem : ∀ n ∈ index.m_index, n.1 ∈ events.map Prod.fst := by
    intro n hn
    obtain ⟨e, he, hek⟩ := (h.groups.keys n.1).mp ⟨n, hn, rfl⟩
    exact hek ▸ List.mem_map_of_mem he
  have hnode := appendNode_eq id
    (fun n hn => hord n.1 (List.mem_cons_of_mem key (hmem n hn)) key List.mem_cons_self)
    (fun n hn => hord key List.mem_cons_self n.1 (List.mem_cons_of_mem key (hmem n hn)))
  have hgroups := h.groups.add (v := id) fun e he =>
    (hord e.1 (List.mem_cons_of_mem key (List.mem_map_of_mem he)) key
      List.mem_cons_self).separates
  have hlength := length_add (keyValue t ukMeta) key id index.m_index
  have hsize := sum_keys_add (keyValue t ukMeta) key id index.varSizeOf index.m_index
  have hcount := sum_values_add (keyValue t ukMeta) key id index.m_index
  rw [AppendingIndex.appendKey, hkey, Exec.ok_bind, h.type, h.keyMeta, hnode, Exec.ok_bind]
  cases hnew : isNew (keyValue t ukMeta) key index.m_index with
  | true =>
    rw [hnew] at hlength hsize
    refine ⟨_, rfl, ⟨rfl, rfl, hgroups, ?_, ?_, ?_⟩, rfl⟩
    · rw [h.keyCount]
      exact hlength.symm
    · rw [h.varSize]
      refine hsize.symm.trans (congrArg List.sum (List.map_congr_left fun n _ => ?_))
      exact varSizeOf_congr h.type h.keyMeta n.1
    · rw [List.length_append, ← h.count]
      exact hcount
  | false =>
    rw [hnew] at hlength hsize
    refine ⟨_, rfl, ⟨rfl, rfl, hgroups, ?_, ?_, ?_⟩, rfl⟩
    · show index.m_keyCount = _
      rw [h.keyCount]
      exact hlength.symm
    · show index.m_varSize = _
      rw [h.varSize]
      refine hsize.symm.trans (congrArg List.sum (List.map_congr_left fun n _ => ?_))
      exact varSizeOf_congr h.type h.keyMeta n.1
    · rw [List.length_append, ← h.count]
      exact hcount

/-- All keys of a record, the new one and that of the old image. -/
theorem Holds.append (h : Holds t ukMeta events index) (hcount : index.m_allCount = events.length)
    {keys : List Key} (hkeys : index.keysOf r = .ok keys)
    (hord : OrdersAll F t ukMeta (keys ++ events.map Prod.fst)) (id : Nat) :
    ∃ index', index.append F r id = .ok index' ∧
      Holds t ukMeta (events ++ keys.map fun key => (key, id)) index' ∧
      index'.m_allCount = (events ++ keys.map fun key => (key, id)).length := by
  obtain ⟨key, hkey, hrest⟩ := Exec.of_bind hkeys
  rw [AppendingIndex.append]
  by_cases hupdate : r.keyUpdate index.m_ukMeta = true
  · rw [if_pos hupdate] at hrest ⊢
    obtain ⟨key', hkey', hret⟩ := Exec.of_bind hrest
    cases hret
    obtain ⟨i₁, hi₁, h₁, ha₁⟩ := h.appendKey hkey
      (hord.mono fun k hk => by
        obtain rfl | hk := List.mem_cons.mp hk
        · simp
        · simp [hk]) id
    obtain ⟨i₂, hi₂, h₂, ha₂⟩ := h₁.appendKey ((h.keyOf_eq h₁ r true).trans hkey')
      (hord.mono fun k hk => by
        rw [List.map_append, List.mem_cons, List.mem_append] at hk
        obtain rfl | hk | hk := hk
        · simp
        · simp [hk]
        · have heq : k = key := by simpa using hk
          simp [heq]) id
    rw [hi₁, Exec.ok_bind, hi₂, Exec.ok_bind]
    refine ⟨_, rfl, ?_, ?_⟩
    · have happ : events ++ [key, key'].map (fun key => (key, id)) =
          events ++ [(key, id)] ++ [(key', id)] := by simp
      rw [happ]
      exact ⟨h₂.type, h₂.keyMeta, h₂.groups, h₂.keyCount, h₂.varSize, h₂.count⟩
    · show i₂.m_allCount + 2 = _
      rw [ha₂, ha₁, hcount]
      simp
  · rw [if_neg hupdate] at hrest ⊢
    cases hrest
    obtain ⟨i₁, hi₁, h₁, ha₁⟩ := h.appendKey hkey (hord.mono fun k hk => hk) id
    rw [hi₁, Exec.ok_bind]
    refine ⟨_, rfl, ?_, ?_⟩
    · exact ⟨h₁.type, h₁.keyMeta, h₁.groups, h₁.keyCount, h₁.varSize, h₁.count⟩
    · show i₁.m_allCount + 1 = _
      rw [ha₁, hcount]
      simp

theorem Holds.eventsOf_eq {index' : AppendingIndex} {events' : List (Key × Nat)}
    (h : Holds t ukMeta events index) (h' : Holds t ukMeta events' index')
    (rows : List (Row × Nat)) : index'.eventsOf rows = index.eventsOf rows := by
  induction rows with
  | nil => rfl
  | cons x rows ih =>
    rw [eventsOf, eventsOf, ih, keysOf, keysOf, h.keyOf_eq h', h.keyOf_eq h', h.keyMeta,
      h'.keyMeta]

theorem appendAll_holds {index₀ : AppendingIndex} (h : Holds t ukMeta events index₀)
    (hcount : index₀.m_allCount = events.length) {rows : List (Row × Nat)}
    {more : List (Key × Nat)} (hevents : index₀.eventsOf rows = .ok more)
    (hord : OrdersAll F t ukMeta ((events ++ more).map Prod.fst)) :
    ∃ index, appendAll F index₀ rows = .ok index ∧ Holds t ukMeta (events ++ more) index ∧
      index.m_allCount = (events ++ more).length := by
  induction rows generalizing index₀ events more with
  | nil =>
    cases hevents
    rw [List.append_nil]
    exact ⟨index₀, rfl, h, hcount⟩
  | cons x rows ih =>
    obtain ⟨keys, hkeys, hrest⟩ := Exec.of_bind hevents
    obtain ⟨rest, hrows, hret⟩ := Exec.of_bind hrest
    cases hret
    rw [← List.append_assoc] at hord
    obtain ⟨index₁, hi₁, h₁, hc₁⟩ := h.append hcount hkeys
      (hord.mono fun k hk => by
        rw [List.map_append, List.mem_append, List.map_append, List.mem_append, List.map_map]
        rw [List.mem_append] at hk
        obtain hk | hk := hk
        · exact Or.inl (Or.inr (by simpa using hk))
        · exact Or.inl (Or.inl hk)) x.2
    obtain ⟨index, hi, hh, hc⟩ := ih h₁ hc₁ ((h.eventsOf_eq h₁ rows).trans hrows) hord
    refine ⟨index, ?_, by rw [← List.append_assoc]; exact hh, by rw [← List.append_assoc]; exact hc⟩
    rw [appendAll, List.foldlM_cons, hi₁]
    exact hi

end AppendingIndex

end DBStream.Native
