import DBStream.Native.RecordRow
import DBStream.Spec.DMLRoundTrip
import DBStream.Spec.IndexKeys
import Mathlib.Data.List.Dedup
import Mathlib.Data.List.TakeWhile

/-!
# An index as a multimap

An index on one column takes the record ids of each key, and `find` answers with the newest one.
The keys are those the index reads of the records.  They are the keys of the records as long as a
string has a length of 16 bits, and an old string starts at the offset at which the new one does,
which is where `_varColumnSize` takes it to start.
-/

namespace DBStream.Native

open Grouping

/-! ## The keys of a record -/

namespace DMLRecord

/-- The bytes a record has as the old value of a column that is updated: of a variable column, from
its offset to the next one. -/
def oldValue (r : DMLRecord) (index : Nat) : Option (List UInt8) :=
  match r.updatedNullBitmap, r.oldColumns, r.oldVarLengthColumns with
  | some nulls, some columns, some array =>
    let size : Exec Nat := do
      let real ← r.realIndex index
      return sub32 (offsetAt r.mem array (real + 1)) (offsetAt r.mem array real)
    (r.bytesOf index (r._column index nulls columns array) size).toOption.join
  | _, _, _ => none

def updatesKey (r : DMLRecord) (index : Nat) : Bool := r.isUpdateType && r.isUpdated index

/-- The old value of a column starts at the offset at which the new one does. -/
def SameStart (r : DMLRecord) (index : Nat) : Prop :=
  ∀ real array, r.realIndex index = .ok real → r.oldVarLengthColumns = some array →
    offsetAt r.mem array real = offsetAt r.mem r.varLengthColumns real

end DMLRecord

namespace AppendingIndex

variable {F : FloatOps} {t : ColumnType} {ukMeta : UnionKeyMeta} {key : Key} {r : DMLRecord}
  {c : UniqueKeyTypePair} {x : DMLRecord × Nat} {events : List (Key × Nat)} {index : AppendingIndex}
  {nodes : List (Key × List Nat)} {d : List UInt8}

/-- An index on one column of integers or strings. -/
def KeyColumn (c : UniqueKeyTypePair) : Prop := c.type.integer = true ∨ c.type = .T_STRING

def IsKey (t : ColumnType) (key : Key) : Prop :=
  if t = .T_STRING then key.length < 2 ^ 16 else key.length = t.columnTypeSize

/-- The keys of a record, each with its id: the new one, and the old one if it is updated. -/
def keysOfRecord (c : UniqueKeyTypePair) (x : DMLRecord × Nat) : List (Key × Nat) :=
  let new := x.1.newColumn c.columnId
  let old := if x.1.updatesKey c.columnId then x.1.oldValue c.columnId else none
  (new.toList ++ old.toList).map fun key => (key, x.2)

/-- A record of a table in which the column has the form of the key's. -/
def HasColumn (c : UniqueKeyTypePair) (r : DMLRecord) : Prop :=
  ∃ t, r.columnType c.columnId = .ok t ∧ t.info.fixed = c.type.fixed ∧
    t.info.columnTypeSize = c.type.columnTypeSize

/-- A record of a table with the key column, which is not null in it. -/
structure HasKey (c : UniqueKeyTypePair) (r : DMLRecord) : Prop where
  type : HasColumn c r
  new : (r.newColumn c.columnId).isSome
  old : r.updatesKey c.columnId = true → (r.oldValue c.columnId).isSome

/-- What the index can do with: an id that is an `int32_t`, strings whose length is a `uint16_t`, and
an old string where `_varColumnSize` takes it to be. -/
structure Readable (c : UniqueKeyTypePair) (x : DMLRecord × Nat) : Prop where
  id : x.2 < 2 ^ 31
  new : c.type = .T_STRING → ∀ d, x.1.newColumn c.columnId = some d → d.length < 2 ^ 16
  old : c.type = .T_STRING → x.1.updatesKey c.columnId = true →
    x.1.SameStart c.columnId ∧ ∀ d, x.1.oldValue c.columnId = some d → d.length < 2 ^ 16

/-- The index is a multimap of the keys and their ids. -/
structure Multimap (F : FloatOps) (c : UniqueKeyTypePair) (events : List (Key × Nat))
    (index : AppendingIndex) : Prop where
  find : ∀ key, IsKey c.type key → index.findId F key =
    .ok (((valuesOf events key).getLast?.map fun id => (id : Int)).getD (-1))
  visited : Groups (keyValue c.type (UnionKeyMeta.createUnionKey [c])) events index.visited
  keyCount : index.m_keyCount = (events.map Prod.fst).dedup.length
  allCount : index.m_allCount = events.length

/-! ## The search -/

/-- `find` gives the last id of the key. -/
theorem Holds.find_eq (h : Holds t ukMeta events index)
    (hord : ∀ n ∈ index.m_index, Orders F t ukMeta n.1 key) :
    index.find F key = .ok (valuesOf events key).getLast? := by
  have hsorted := h.groups.sorted
  have hnone : (∀ n ∈ index.m_index, n.1 ≠ key) → valuesOf events key = [] := by
    intro hne
    apply valuesOf_eq_nil
    intro e he hek
    obtain ⟨n, hn, hnk⟩ := (h.groups.keys key).mpr ⟨e, he, hek⟩
    exact hne n hn hnk
  have hbefore : ∀ n ∈ index.m_index.takeWhile (before (keyValue t ukMeta) key), n.1 ≠ key := by
    intro n hn heq
    have hlt := List.mem_takeWhile_imp hn
    simp [before, heq] at hlt
  have hsplit := List.takeWhile_append_dropWhile (p := before (keyValue t ukMeta) key)
    (l := index.m_index)
  unfold find
  rw [h.type, h.keyMeta, findGreaterOrEqual_eq hord, Exec.ok_bind]
  cases hdrop : index.m_index.dropWhile (before (keyValue t ukMeta) key) with
  | nil =>
    rw [hdrop, List.append_nil] at hsplit
    rw [hnone (by rw [← hsplit]; exact hbefore)]
    rfl
  | cons n rest =>
    have hmem : n ∈ index.m_index := (List.dropWhile_sublist _).subset (hdrop ▸ List.mem_cons_self)
    rw [hdrop] at hsplit
    have hge : ¬ keyValue t ukMeta n.1 < keyValue t ukMeta key := by
      have hhead := List.head?_dropWhile_not (before (keyValue t ukMeta) key) index.m_index
      rw [hdrop] at hhead
      simpa [before] using hhead
    simp only [(hord n hmem).greater, Exec.ok_bind]
    by_cases hgt : keyValue t ukMeta key < keyValue t ukMeta n.1
    · -- the key would stand between the nodes in front and this one
      rw [hnone]
      · simp [hgt]
      · intro m hm heq
        rw [← hsplit] at hm
        rcases List.mem_append.mp hm with hm | hm
        · exact hbefore m hm heq
        · rw [← hsplit] at hsorted
          obtain ⟨-, hrest, -⟩ := List.pairwise_append.mp hsorted
          rcases List.mem_cons.mp hm with rfl | hm
          · rw [heq] at hgt
            exact lt_irrefl _ hgt
          · have hlt := (List.pairwise_cons.mp hrest).1 m hm
            rw [heq] at hlt
            exact lt_irrefl _ (hlt.trans hgt)
    · have heq : n.1 = key :=
        (hord n hmem).separates (le_antisymm (le_of_not_gt hgt) (le_of_not_gt hge))
      rw [← heq, ← h.groups.values n hmem]
      simp [heq]

private theorem visitFrom_eq (nodes : List (Key × List Nat)) : visitFrom nodes = nodes := by
  induction nodes with
  | nil => rfl
  | cons n nodes ih =>
    cases nodes with
    | nil => rfl
    | cons m nodes => simp [visitFrom, nextKey] at ih ⊢; exact ih

theorem Holds.visited_eq (h : Holds t ukMeta events index) : index.visited = index.m_index := by
  have hne : ∀ n ∈ index.m_index, n.2.length ≠ 0 := fun n hn hzero =>
    h.groups.ne_nil hn (List.length_eq_zero_iff.mp hzero)
  unfold visited seekToFirst
  split
  · next hnil => simp [hnil]
  · next n nodes hcons =>
    rw [hcons] at hne ⊢
    rw [if_neg (hne n List.mem_cons_self)]
    simp [visitFrom_eq]

theorem Holds.keyCount_eq (h : Holds t ukMeta events index) :
    index.m_keyCount = (events.map Prod.fst).dedup.length := by
  have hnodup : (index.m_index.map Prod.fst).Nodup := by
    rw [List.nodup_iff_pairwise_ne, List.pairwise_map]
    exact h.groups.sorted.imp fun hlt heq => absurd hlt (by rw [heq]; exact lt_irrefl _)
  have hperm := (List.perm_ext_iff_of_nodup hnodup (List.nodup_dedup (events.map Prod.fst))).mpr
    fun k => by simpa using h.groups.keys k
  rw [h.keyCount, ← hperm.length_eq, List.length_map]

/-! ## What the index reads -/

theorem fixed_of_integer (h : t.integer = true) : t.fixed = true := by
  cases t <;> first | rfl | cases h

theorem bytesOf_fixed {i : Nat} {pointer : Exec (Option Nat)} {size : Exec Nat} {t : Meta.ColumnType}
    (ht : r.columnType i = .ok t) (hfixed : t.info.fixed = true)
    (h : (r.bytesOf i pointer size).toOption.join = some d) : d.length = t.info.columnTypeSize := by
  unfold DMLRecord.bytesOf at h
  cases pointer with
  | error e => cases h
  | ok p =>
    cases p with
    | none => cases h
    | some p =>
      simp only [Exec.ok_bind, ht, hfixed, if_true] at h
      cases h
      exact RawMemory.length_read ..

private theorem length_newColumn (h : HasKey c r) (hfixed : c.type.fixed = true)
    (hd : r.newColumn c.columnId = some d) : d.length = c.type.columnTypeSize := by
  obtain ⟨t, ht, hf, hs⟩ := h.type
  rw [← hs]
  exact bytesOf_fixed ht (hf.trans hfixed) hd

private theorem length_oldValue (h : HasKey c r) (hfixed : c.type.fixed = true)
    (hd : r.oldValue c.columnId = some d) : d.length = c.type.columnTypeSize := by
  obtain ⟨t, ht, hf, hs⟩ := h.type
  rw [← hs]
  unfold DMLRecord.oldValue at hd
  split at hd
  · exact bytesOf_fixed ht (hf.trans hfixed) hd
  · cases hd

/-- The old key is read as the record has it, if it is of a fixed type or starts where the new one
does. -/
theorem oldColumn_eq (h : HasColumn c r) (hupdate : r.updatesKey c.columnId = true)
    (hstart : c.type.fixed = false → r.SameStart c.columnId) :
    r.oldColumn c.columnId = r.oldValue c.columnId := by
  obtain ⟨t, ht, hf, -⟩ := h
  obtain ⟨-, hupdated⟩ := Bool.and_eq_true_iff.mp hupdate
  unfold DMLRecord.isUpdated at hupdated
  split at hupdated
  · cases hupdated
  next updated hbitmap =>
  unfold DMLRecord.oldValue
  unfold DMLRecord.oldColumn DMLRecord.oldColumnOfUpdateType DMLRecord.oldVarColumnSizeOfUpdateType
  simp only [hbitmap, deref, Exec.ok_bind, hupdated, if_true]
  cases hnulls : r.updatedNullBitmap with
  | none => rfl
  | some nulls =>
  cases hcolumns : r.oldColumns with
  | none => rfl
  | some columns =>
  cases harray : r.oldVarLengthColumns with
  | none => rfl
  | some array =>
  simp only [Exec.ok_bind]
  unfold DMLRecord.bytesOf
  -- a column with a pointer is not null, so its size is a difference of offsets
  unfold DMLRecord._column DMLRecord._varColumnSize
  cases hnull : r.mem.testBit nulls c.columnId with
  | false => simp only [Bool.not_false, if_true, Exec.pure_eq, Exec.ok_bind]
  | true =>
    simp only [Bool.not_true, Bool.false_eq_true, if_false, ht, Exec.ok_bind, hf]
    cases hfixed : c.type.fixed with
    | true => simp only [if_true]
    | false =>
      cases hreal : r.realIndex c.columnId with
      | error e =>
        have herror : ∀ f : Nat → Exec (Option Nat), ((.error e : Exec Nat) >>= f) = .error e :=
          fun _ => rfl
        have hnone : ∀ f : Option Nat → Exec (Option (List UInt8)),
            (Except.toOption ((.error e : Exec (Option Nat)) >>= f)).join = none := fun _ => rfl
        simp only [herror, hnone, Bool.false_eq_true, if_false]
      | ok real =>
        simp [hstart hfixed real array hreal harray]

/-! ## The keys of the rows -/

theorem keyOf_ofRecord (old : Bool) (hkey : KeyColumn c)
    (hread : (Row.ofRecord r).image old c.columnId = some d) (hd : IsKey c.type d) :
    (ofEntries (UnionKeyMeta.createUnionKey [c]) []).keyOf (Row.ofRecord r) old = .ok d := by
  have hfixed : c.type.integer = true → (Row.ofRecord r).readFixed old c = .ok d := by
    intro hint
    have hne : c.type ≠ .T_STRING := by
      intro hstring
      rw [hstring] at hint
      cases hint
    rw [IsKey, if_neg hne] at hd
    unfold Row.readFixed
    rw [hread]
    simp [deref, ← hd]
  rcases hkey with hint | hstring
  · rw [keyOf_integer rfl rfl hint, hfixed hint]
  · rw [IsKey, if_pos hstring] at hd
    rw [keyOf_string rfl rfl hstring, Row.readVar, hread]
    simp only [Option.getD_some, Nat.mod_eq_of_lt hd, List.take_length]

theorem isKey_keysOfRecord (hkey : KeyColumn c) (h : HasKey c x.1) (hx : Readable c x) :
    ∀ e ∈ keysOfRecord c x, IsKey c.type e.1 := by
  have hkeys : ∀ d, (c.type = .T_STRING → d.length < 2 ^ 16) →
      (c.type.fixed = true → d.length = c.type.columnTypeSize) → IsKey c.type d := by
    intro d hstring hfixed
    unfold IsKey
    split
    · next hs => exact hstring hs
    · next hs =>
      exact hfixed (fixed_of_integer (hkey.resolve_right hs))
  rintro ⟨d, id⟩ he
  simp only [keysOfRecord, List.mem_map, List.mem_append, Option.mem_toList] at he
  obtain ⟨d', hd, heq⟩ := he
  cases heq
  rcases hd with hd | hd
  · exact hkeys d (fun hs => hx.new hs d hd) fun hf => length_newColumn h hf hd
  · split at hd
    · next hupdate =>
      exact hkeys d (fun hs => (hx.old hs hupdate).2 d hd) fun hf => length_oldValue h hf hd
    · cases hd

theorem keyUpdate_ofRecord : (Row.ofRecord r).keyUpdate (UnionKeyMeta.createUnionKey [c]) =
    r.updatesKey c.columnId := by
  simp [Row.keyUpdate, Row.isKeyUpdated, Row.ofRecord, DMLRecord.updatesKey,
    UnionKeyMeta.createUnionKey]

theorem keysOf_ofRecord (hkey : KeyColumn c) (h : HasKey c x.1) (hx : Readable c x) :
    ((ofEntries (UnionKeyMeta.createUnionKey [c]) []).keysOf (Row.ofRecord x.1)).map
      (fun keys => keys.map fun key => (key, x.2)) = .ok (keysOfRecord c x) := by
  have hall := isKey_keysOfRecord hkey h hx
  obtain ⟨new, hnew⟩ := Option.isSome_iff_exists.mp h.new
  have hnewKey := keyOf_ofRecord false hkey (d := new) hnew
    (hall (new, x.2) (by simp [keysOfRecord, hnew]))
  unfold keysOf
  rw [hnewKey, Exec.ok_bind, show (ofEntries (UnionKeyMeta.createUnionKey [c]) []).m_ukMeta =
    UnionKeyMeta.createUnionKey [c] from rfl, keyUpdate_ofRecord]
  cases hup : x.1.updatesKey c.columnId with
  | false =>
    simp [keysOfRecord, hnew, hup]
    rfl
  | true =>
    obtain ⟨old, hold⟩ := Option.isSome_iff_exists.mp (h.old hup)
    have hread : x.1.oldColumn c.columnId = some old := by
      rw [oldColumn_eq h.type hup, hold]
      intro hvar
      have hstring : c.type = .T_STRING :=
        hkey.resolve_left fun hint => by simp [fixed_of_integer hint] at hvar
      exact (hx.old hstring hup).1
    have holdKey := keyOf_ofRecord true hkey (d := old) hread
      (hall (old, x.2) (by simp [keysOfRecord, hold, hup]))
    simp only [if_true, holdKey, Exec.ok_bind]
    simp [keysOfRecord, hnew, hold, hup]
    rfl

/-! ## The runs -/

variable {records : List (DMLRecord × Nat)}

def rowsOf (records : List (DMLRecord × Nat)) : List (Row × Nat) :=
  records.map fun x => (Row.ofRecord x.1, x.2)

theorem eventsOf_rowsOf (hkey : KeyColumn c) (h : ∀ x ∈ records, HasKey c x.1)
    (hread : ∀ x ∈ records, Readable c x) :
    (ofEntries (UnionKeyMeta.createUnionKey [c]) []).eventsOf (rowsOf records) =
      .ok (records.flatMap (keysOfRecord c)) := by
  induction records with
  | nil => rfl
  | cons x records ih =>
    have hx := keysOf_ofRecord hkey (h x List.mem_cons_self) (hread x List.mem_cons_self)
    have hrest := ih (fun y hy => h y (List.mem_cons_of_mem x hy))
      fun y hy => hread y (List.mem_cons_of_mem x hy)
    simp only [rowsOf, List.map_cons, eventsOf] at hrest ⊢
    cases hkeys : (ofEntries (UnionKeyMeta.createUnionKey [c]) []).keysOf (Row.ofRecord x.1) with
    | error e =>
      rw [hkeys] at hx
      cases hx
    | ok keys =>
      rw [hkeys] at hx
      rw [Exec.ok_bind, hrest, List.flatMap_cons, ← Except.ok.inj hx]
      rfl

theorem typeOf_single (c : UniqueKeyTypePair) : typeOf (UnionKeyMeta.createUnionKey [c]) = c.type :=
  rfl

theorem orders_isKey (hkey : KeyColumn c) {a b : Key} (ha : IsKey c.type a) (hb : IsKey c.type b) :
    Orders F c.type ukMeta a b := by
  rcases hkey with hint | hstring
  · have hne : c.type ≠ .T_STRING := by
      intro hs
      rw [hs] at hint
      cases hint
    rw [IsKey, if_neg hne] at ha hb
    exact orders_integer hint ha hb
  · rw [hstring]
    exact orders_string

theorem create_single (hkey : KeyColumn c) : create (UnionKeyMeta.createUnionKey [c]) =
    .ok (ofEntries (UnionKeyMeta.createUnionKey [c]) []) := by
  unfold create
  rcases hkey with hint | hstring
  · unfold ofEntries
    rw [typeOf_single]
    cases hc : c.type <;> rw [hc] at hint <;> first | rfl | cases hint
  · unfold ofEntries
    rw [typeOf_single, hstring]
    rfl

/-- After any appends of records that the index can read, it is a multimap of their keys. -/
theorem multimap_of_readable (F : FloatOps) (hkey : KeyColumn c)
    (h : ∀ x ∈ records, HasKey c x.1) (hread : ∀ x ∈ records, Readable c x) :
    ∃ index, (create (UnionKeyMeta.createUnionKey [c]) >>= fun index =>
        appendAll F index (rowsOf records)) = .ok index ∧
      Multimap F c (records.flatMap (keysOfRecord c)) index := by
  have hevents := eventsOf_rowsOf hkey h hread
  have hkeys : ∀ e ∈ records.flatMap (keysOfRecord c), IsKey c.type e.1 := by
    intro e he
    obtain ⟨x, hx, he⟩ := List.mem_flatMap.mp he
    exact isKey_keysOfRecord hkey (h x hx) (hread x hx) e he
  have hords : OrdersAll F c.type (UnionKeyMeta.createUnionKey [c])
      ((records.flatMap (keysOfRecord c)).map Prod.fst) := by
    intro a ha b hb
    obtain ⟨ea, hea, rfl⟩ := List.mem_map.mp ha
    obtain ⟨eb, heb, rfl⟩ := List.mem_map.mp hb
    exact orders_isKey hkey (hkeys ea hea) (hkeys eb heb)
  obtain ⟨hempty, hzero⟩ := create_holds (create_single hkey)
  obtain ⟨index, happ, hholds, hcount⟩ := appendAll_holds hempty hzero hevents hords
  rw [List.nil_append] at hholds hcount
  refine ⟨index, by rw [create_single hkey, Exec.ok_bind, happ], ?_, ?_, hholds.keyCount_eq, hcount⟩
  · intro key hk
    have hord : ∀ n ∈ index.m_index, Orders F c.type (UnionKeyMeta.createUnionKey [c]) n.1 key := by
      intro n hn
      obtain ⟨e, he, hek⟩ := (hholds.groups.keys n.1).mp ⟨n, hn, rfl⟩
      exact orders_isKey hkey (hek ▸ hkeys e he) hk
    unfold findId
    rw [hholds.find_eq hord, Exec.ok_bind]
    cases hlast : (valuesOf (records.flatMap (keysOfRecord c)) key).getLast? with
    | none => rfl
    | some id =>
      -- the id is one of a record
      have hmem := List.mem_of_getLast? hlast
      obtain ⟨e, he, rfl⟩ := List.mem_map.mp hmem
      obtain ⟨x, hx, he⟩ := List.mem_flatMap.mp (List.mem_filter.mp he).1
      obtain ⟨k, -, rfl⟩ := List.mem_map.mp he
      have hid := (hread x hx).id
      have hint : toInt32 (x.2 : Int) = x.2 := by
        unfold toInt32
        omega
      exact congrArg Except.ok hint
  · rw [hholds.visited_eq]
    exact hholds.groups

/-- The bytes of a record, and zeros behind it. -/
def memoryOf (bytes : List UInt8) : RawMemory := fun i => bytes.getD i 0

/-- The record of an update of the row `(0, "xyz", "c")` of a table with a number and two texts to
`(0, "x", "b")`. -/
def shiftedUpdate : List UInt8 :=
  [87, 0, 0, 0, 0, 38, 1, 1] ++ List.replicate 30 0 ++ [0, 0, 0, 0, 0, 0, 0, 0] ++
    -- new image
    [7] ++ [0, 0, 0, 0] ++ [16, 0, 0, 0, 17, 0, 0, 0, 18, 0, 0, 0] ++ [120, 98] ++
    -- old image
    [6, 6] ++ [0, 0, 0, 0] ++ [16, 0, 0, 0, 19, 0, 0, 0, 20, 0, 0, 0] ++ [120, 121, 122, 99]

def shiftedRecord : DMLRecord where
  mem := memoryOf shiftedUpdate
  meta' := smallTable.buildColumnOffsetList
  tableMetaID := 0
  nullBitmap := 46
  columns := 47
  varLengthColumns := 51
  oldColumns := some 67
  oldVarLengthColumns := some 71
  updatedBitmap := some 65
  updatedNullBitmap := some 66

theorem newColumn_shiftedRecord : shiftedRecord.newColumn 1 = some [120] ∧
    shiftedRecord.newColumn 2 = some [98] := ⟨rfl, rfl⟩

theorem oldValue_shiftedRecord : shiftedRecord.oldValue 1 = some [120, 121, 122] ∧
    shiftedRecord.oldValue 2 = some [99] := ⟨rfl, rfl⟩

theorem hasKey_shiftedRecord (i : Nat) (h : i = 1 ∨ i = 2) :
    HasKey ⟨.T_STRING, i⟩ shiftedRecord := by
  rcases h with rfl | rfl
  · exact ⟨⟨.T_STRING, rfl, rfl, rfl⟩, by simp [newColumn_shiftedRecord],
      fun _ => by simp [oldValue_shiftedRecord]⟩
  · exact ⟨⟨.T_STRING, rfl, rfl, rfl⟩, by simp [newColumn_shiftedRecord],
      fun _ => by simp [oldValue_shiftedRecord]⟩

/-- The second column starts where it did. -/
theorem multimap_shiftedRecord : ∃ index,
    (create (UnionKeyMeta.createUnionKey [⟨.T_STRING, 1⟩]) >>= fun index =>
      appendAll noFloats index (rowsOf [(shiftedRecord, 0)])) = .ok index ∧
    Multimap noFloats ⟨.T_STRING, 1⟩
      ([(shiftedRecord, 0)].flatMap (keysOfRecord ⟨.T_STRING, 1⟩)) index := by
  refine multimap_of_readable noFloats (.inr rfl) ?_ ?_
  · intro x hx
    rw [List.mem_singleton.mp hx]
    exact hasKey_shiftedRecord 1 (.inl rfl)
  · intro x hx
    rw [List.mem_singleton.mp hx]
    refine ⟨by decide, ?_, ?_⟩
    · intro _ d hd
      rw [newColumn_shiftedRecord.1] at hd
      cases hd
      decide
    · refine fun _ _ => ⟨?_, ?_⟩
      · intro real array hreal harray
        cases hreal
        cases harray
        decide +kernel
      · intro d hd
        rw [oldValue_shiftedRecord.1] at hd
        cases hd
        decide

/-- The third column has moved, and its old value is read with two bytes too many. -/
theorem not_multimap_shiftedRecord :
    KeyColumn ⟨.T_STRING, 2⟩ ∧ HasKey ⟨.T_STRING, 2⟩ shiftedRecord ∧ ¬ ∃ index,
      (create (UnionKeyMeta.createUnionKey [⟨.T_STRING, 2⟩]) >>= fun index =>
        appendAll noFloats index (rowsOf [(shiftedRecord, 0)])) = .ok index ∧
      Multimap noFloats ⟨.T_STRING, 2⟩
        ([(shiftedRecord, 0)].flatMap (keysOfRecord ⟨.T_STRING, 2⟩)) index := by
  refine ⟨.inr rfl, hasKey_shiftedRecord 2 (.inr rfl), ?_⟩
  rintro ⟨index, hrun, hmap⟩
  have hindex : (create (UnionKeyMeta.createUnionKey [⟨.T_STRING, 2⟩]) >>= fun index =>
      appendAll noFloats index (rowsOf [(shiftedRecord, 0)])) =
        .ok (ofEntries (UnionKeyMeta.createUnionKey [⟨.T_STRING, 2⟩])
          [([98], [0]), ([99, 0, 0], [0])]) := by
    decide +kernel
  rw [hindex] at hrun
  cases hrun
  -- the old key is there with an id, and the index does not find it
  have hkey : IsKey .T_STRING [99] := by simp [IsKey]
  have hfind := hmap.find [99] hkey
  have hevents : valuesOf ([(shiftedRecord, 0)].flatMap (keysOfRecord ⟨.T_STRING, 2⟩)) [99] = [0] := rfl
  rw [hevents] at hfind
  revert hfind
  decide

end AppendingIndex

end DBStream.Native
