import DBStream.Native.AppendingBlock
import DBStream.Spec.IndexEntries

/-!
# The keys of an index

What is known of the keys of the rows: how long those of the fixed layout are, and that the
operators agree with the values where the key is an integer or a string.
-/

namespace DBStream.Native

open AppendingIndex

/-- The rows a block takes: at least one, else there is no page. -/
structure Admitted (rows : List (Row × Nat)) : Prop where
  nonempty : rows ≠ []
  count : rows.length ≤ maxRecordInBlock
  ids : ∀ x ∈ rows, x.2 < maxRecordInBlock

/-- The types of a column whose values an index has as integers. -/
def ColumnType.integer : ColumnType → Bool
  | .T_UINT8 | .T_INT8 | .T_UINT16 | .T_INT16 | .T_UINT32 | .T_INT32 | .T_UINT64 | .T_INT64
  | .T_TIMESTAMP => true
  | _ => false

/-- The keys of the fixed layout: an integer column, or several columns that are all fixed. -/
def FixedKey (columns : List UniqueKeyTypePair) : Prop :=
  (∃ c, columns = [c] ∧ c.type.integer) ∨
    (2 ≤ columns.length ∧ columns.all fun c => c.type.fixed)

variable {F : FloatOps} {t : ColumnType} {ukMeta : UnionKeyMeta} {a b key : Key} {r : Row}
  {old : Bool} {c : UniqueKeyTypePair} {columns : List UniqueKeyTypePair}

/-- An insert of one value in every key column. -/
def rowOf (columns : Nat → List UInt8) : Row where
  isUpdate := false
  updatedBitmap := fun _ => false
  column := fun i => some (columns i)
  oldColumnOfUpdateType := fun _ => none

def noFloats : FloatOps where
  compare := fun _ _ _ => 0
  greater := fun _ _ _ => false
  equal := fun _ _ _ => false
  column := fun _ _ _ => 0
  find := fun _ _ _ => 0

/-! ## The length of a key -/

theorem Row.length_readFixed {d : List UInt8} (h : r.readFixed old c = .ok d) :
    d.length = c.type.columnTypeSize := by
  obtain ⟨image, -, hd⟩ := Exec.of_bind h
  split at hd
  · rename_i hle
    cases hd
    simpa using hle
  · cases hd

theorem UnionKey.length_initColumns (hfixed : ∀ c ∈ columns, c.type.fixed) {ds : List (List UInt8)}
    (h : columns.mapM (UnionKey.initColumn r old) = .ok ds) :
    ds.flatten.length = (columns.map UnionKeyMeta.columnSize).sum := by
  induction columns generalizing ds with
  | nil =>
    cases h
    rfl
  | cons c columns ih =>
    rw [List.mapM_cons] at h
    obtain ⟨d, hd, h⟩ := Exec.of_bind h
    obtain ⟨ds', hds, hret⟩ := Exec.of_bind h
    cases hret
    have hc := hfixed c List.mem_cons_self
    rw [UnionKey.initColumn, if_pos hc] at hd
    rw [List.flatten_cons, List.length_append, List.map_cons, List.sum_cons,
      Row.length_readFixed hd, ih (fun c hc => hfixed c (List.mem_cons_of_mem _ hc)) hds,
      UnionKeyMeta.columnSize, if_pos hc]

/-- A union key of fixed columns is as long as its metadata say; a longer one would not fit the
    buffer it is put together in. -/
theorem UnionKey.length_ofRow (hfixed : columns.all fun c => c.type.fixed)
    (h : UnionKey.ofRow (UnionKeyMeta.createUnionKey columns) r old = .ok key) :
    key.length = (UnionKeyMeta.createUnionKey columns).size := by
  have hmeta : (UnionKeyMeta.createUnionKey columns).fixed = true := hfixed
  obtain ⟨ds, hds, hret⟩ := Exec.of_bind h
  have hlength := UnionKey.length_initColumns (List.all_eq_true.mp hfixed) hds
  simp only [hmeta, true_or, if_true, List.nil_append, UnionKey.memSize, Nat.add_zero] at hret
  split at hret
  · rename_i hle
    cases hret
    have hsize : (UnionKeyMeta.createUnionKey columns).size =
      (columns.map UnionKeyMeta.columnSize).sum % 2 ^ 16 := rfl
    omega
  · cases hret

theorem typeOf_union (h : 2 ≤ ukMeta.columnInfo.length) : typeOf ukMeta = .T_UNION := by
  unfold typeOf
  split
  · rename_i hc
    rw [hc] at h
    simp at h
  · rfl

theorem keySize_union (h : 2 ≤ ukMeta.columnInfo.length) : keySize ukMeta = ukMeta.size := by
  unfold keySize
  split
  · rename_i hc
    rw [hc] at h
    simp at h
  · rfl

theorem isFixed_union (h : 2 ≤ ukMeta.columnInfo.length) : isFixed ukMeta = ukMeta.fixed := by
  unfold isFixed
  split
  · rename_i hc
    rw [hc] at h
    simp at h
  · rfl

theorem keyOf_integer {index : AppendingIndex}
    (ht : index.m_type = typeOf (UnionKeyMeta.createUnionKey [c]))
    (hm : index.m_ukMeta = UnionKeyMeta.createUnionKey [c]) (hint : c.type.integer = true) :
    index.keyOf r old = r.readFixed old c := by
  have htype : typeOf (UnionKeyMeta.createUnionKey [c]) = c.type := rfl
  unfold keyOf
  rw [ht, hm, htype]
  cases hc : c.type <;> first | rfl | (rw [hc] at hint; cases hint)

theorem keyOf_string {index : AppendingIndex}
    (ht : index.m_type = typeOf (UnionKeyMeta.createUnionKey [c]))
    (hm : index.m_ukMeta = UnionKeyMeta.createUnionKey [c]) (hstring : c.type = .T_STRING) :
    index.keyOf r old =
      .ok ((r.readVar old c).take ((r.readVar old c).length % 2 ^ 16)) := by
  have htype : typeOf (UnionKeyMeta.createUnionKey [c]) = c.type := rfl
  unfold keyOf
  rw [ht, hm, htype, hstring]
  rfl

theorem length_keyOf (hkey : FixedKey columns) {index : AppendingIndex}
    (ht : index.m_type = typeOf (UnionKeyMeta.createUnionKey columns))
    (hm : index.m_ukMeta = UnionKeyMeta.createUnionKey columns)
    (h : index.keyOf r old = .ok key) :
    key.length = keySize (UnionKeyMeta.createUnionKey columns) := by
  obtain ⟨c, rfl, hint⟩ | ⟨hlen, hfixed⟩ := hkey
  · rw [keyOf_integer ht hm hint] at h
    exact Row.length_readFixed h
  · have hunion : typeOf (UnionKeyMeta.createUnionKey columns) = .T_UNION := typeOf_union hlen
    rw [keyOf, ht, hm, hunion] at h
    rw [keySize_union hlen]
    exact UnionKey.length_ofRow hfixed h

/-! ## The keys of the rows -/

variable {index : AppendingIndex} {rows : List (Row × Nat)} {events : List (Key × Nat)}

private theorem mem_keysOf {keys : List Key} (h : index.keysOf r = .ok keys) (hmem : key ∈ keys) :
    ∃ old, index.keyOf r old = .ok key := by
  obtain ⟨new, hnew, hrest⟩ := Exec.of_bind h
  split at hrest
  · obtain ⟨old, hold, hret⟩ := Exec.of_bind hrest
    cases hret
    obtain rfl | hmem := List.mem_cons.mp hmem
    · exact ⟨false, hnew⟩
    · exact ⟨true, by rw [List.mem_singleton.mp hmem]; exact hold⟩
  · cases hrest
    exact ⟨false, by rw [List.mem_singleton.mp hmem]; exact hnew⟩

private theorem length_keysOf {keys : List Key} (h : index.keysOf r = .ok keys) :
    1 ≤ keys.length ∧ keys.length ≤ 2 := by
  obtain ⟨new, hnew, hrest⟩ := Exec.of_bind h
  split at hrest
  · obtain ⟨old, hold, hret⟩ := Exec.of_bind hrest
    cases hret
    simp
  · cases hrest
    simp

theorem mem_eventsOf (h : index.eventsOf rows = .ok events) {e : Key × Nat} (he : e ∈ events) :
    ∃ x ∈ rows, ∃ old, index.keyOf x.1 old = .ok e.1 ∧ x.2 = e.2 := by
  induction rows generalizing events with
  | nil =>
    cases h
    exact absurd he List.not_mem_nil
  | cons x rows ih =>
    obtain ⟨keys, hkeys, h⟩ := Exec.of_bind h
    obtain ⟨rest, hrest, hret⟩ := Exec.of_bind h
    cases hret
    obtain he | he := List.mem_append.mp he
    · obtain ⟨key, hmem, rfl⟩ := List.mem_map.mp he
      obtain ⟨old, hold⟩ := mem_keysOf hkeys hmem
      exact ⟨x, List.mem_cons_self, old, hold, rfl⟩
    · obtain ⟨y, hy, hkey⟩ := ih hrest he
      exact ⟨y, List.mem_cons_of_mem x hy, hkey⟩

theorem length_eventsOf (h : index.eventsOf rows = .ok events) :
    rows.length ≤ events.length ∧ events.length ≤ 2 * rows.length := by
  induction rows generalizing events with
  | nil =>
    cases h
    exact ⟨le_refl 0, le_refl 0⟩
  | cons x rows ih =>
    obtain ⟨keys, hkeys, h⟩ := Exec.of_bind h
    obtain ⟨rest, hrest, hret⟩ := Exec.of_bind h
    cases hret
    have hkeys := length_keysOf hkeys
    have hrest := ih hrest
    simp only [List.length_append, List.length_map, List.length_cons]
    omega

theorem Admitted.events_ne_nil (hrows : Admitted rows) (h : index.eventsOf rows = .ok events) :
    events ≠ [] := by
  have hpos := List.length_pos_of_ne_nil hrows.nonempty
  have hle := (length_eventsOf h).1
  exact List.ne_nil_of_length_pos (by omega)

theorem appendAll_eq (hnew : create ukMeta = .ok (ofEntries ukMeta []))
    (hread : (ofEntries ukMeta []).eventsOf rows = .ok events)
    (hord : OrdersAll F (typeOf ukMeta) ukMeta (events.map Prod.fst)) :
    ∃ entries, (create ukMeta >>= fun index => appendAll F index rows) =
        .ok (ofEntries ukMeta entries) ∧
      Grouping.Groups (keyValue (typeOf ukMeta) ukMeta) events entries := by
  obtain ⟨hempty, hzero⟩ := create_holds hnew
  obtain ⟨index, happ, hholds, hcount⟩ := appendAll_holds hempty hzero hread hord
  refine ⟨index.m_index, ?_, hholds.groups⟩
  rw [hnew, Exec.ok_bind, happ, ← hholds.eq_ofEntries hcount]

theorem toString_ofEntries {entries : List (Key × List Nat)} {d : List UInt8} (hne : entries ≠ [])
    (hblob : typeOf ukMeta ≠ .T_BLOB)
    (hd : (if isFixed ukMeta then (ofEntries ukMeta entries).createFixedSolidIndex
      else (ofEntries ukMeta entries).createVarSolidIndex) = d)
    (hroom : d.length ≤ bufferSize (ofEntries ukMeta entries).toSolidIndexSize) :
    (ofEntries ukMeta entries).toString = .ok d := by
  unfold AppendingIndex.toString
  rw [← hd] at hroom ⊢
  rw [if_neg (show (ofEntries ukMeta entries).m_index ≠ [] from hne),
    if_neg (show (ofEntries ukMeta entries).m_type ≠ .T_BLOB from hblob)]
  exact if_pos hroom

/-! ## Integers -/

theorem intValue_inj (ha : a.length = t.columnTypeSize) (hb : b.length = t.columnTypeSize)
    (h : intValue t a = intValue t b) : a = b := by
  have hlt : ∀ d : List UInt8, d.length = t.columnTypeSize →
      ((LE.nat d : Nat) : Int) < 2 ^ (8 * t.columnTypeSize) := by
    intro d hd
    have hnat := LE.nat_lt d
    rw [hd, show (256 : Nat) = 2 ^ 8 from rfl, ← Nat.pow_mul] at hnat
    exact_mod_cast hnat
  have hnat : LE.nat a = LE.nat b := by
    have hla := hlt a ha
    have hlb := hlt b hb
    unfold intValue at h
    rw [List.take_of_length_le (by omega), List.take_of_length_le (by omega)] at h
    simp only at h
    split at h <;> split at h <;> omega
  rw [← LE.bytes_nat a, ← LE.bytes_nat b, ha, hb, hnat]

theorem compareInt_neg {x y : Int} : compareInt x y < 0 ↔ x < y := by
  unfold compareInt
  split
  · simp [*]
  · split <;> simp [*]

theorem compareInt_pos {x y : Int} : 0 < compareInt x y ↔ y < x := by
  unfold compareInt
  split
  · simp only [Int.reduceNeg, Int.reduceLT, false_iff]
    omega
  · split <;> simp [*]

theorem keyValue_integer (ht : t.integer) (key : Key) :
    keyValue t ukMeta key = [[intValue t key]] := by
  cases t <;> first | rfl | cases ht

theorem compareKey_integer (ht : t.integer) :
    compareKey F t ukMeta a b = .ok (compareInt (intValue t a) (intValue t b)) := by
  cases t <;> first | rfl | cases ht

private theorem greaterKey_integer (ht : t.integer) :
    greaterKey F t ukMeta a b = .ok (decide (0 < compareInt (intValue t a) (intValue t b))) := by
  cases t <;> first | rfl | cases ht

theorem equalKey_integer (ht : t.integer) : equalKey F t a b = (a == b) := by
  cases t <;> first | rfl | cases ht

theorem orders_integer (ht : t.integer) (ha : a.length = t.columnTypeSize)
    (hb : b.length = t.columnTypeSize) : Orders F t ukMeta a b := by
  have hlt : ∀ x y : Int, ([[x]] : List (List Int)) < [[y]] ↔ x < y := by
    intro x y
    simp [List.cons_lt_cons_iff]
  refine ⟨⟨_, compareKey_integer ht, ?_, ?_⟩, ?_, ?_, fun h => ?_⟩
  · rw [compareInt_neg, keyValue_integer ht, keyValue_integer ht, hlt]
  · rw [compareInt_pos, keyValue_integer ht, keyValue_integer ht, hlt]
  · rw [greaterKey_integer ht, keyValue_integer ht, keyValue_integer ht]
    simp only [compareInt_pos, hlt]
  · rw [equalKey_integer ht, beq_eq_decide]
  · rw [keyValue_integer ht, keyValue_integer ht] at h
    exact intValue_inj ha hb (by simpa using h)

/-! ## Strings -/

theorem binaryCompare_cons (x y : UInt8) (a b : List UInt8) :
    binaryCompare (x :: a) (y :: b) =
      if x < y then -1 else if y < x then 1 else binaryCompare a b := by
  simp only [binaryCompare, memcmp, List.length_cons, Nat.add_right_cancel_iff,
    Nat.add_lt_add_iff_right]
  by_cases hxy : x < y
  · simp [hxy]
  · by_cases hyx : y < x
    · simp [hxy, hyx]
    · simp [hxy, hyx]

theorem binaryCompare_spec (a b : List UInt8) :
    (binaryCompare a b < 0 ↔
      (a.map fun x => (x.toNat : Int)) < b.map fun x => (x.toNat : Int)) ∧
    (0 < binaryCompare a b ↔
      (b.map fun x => (x.toNat : Int)) < a.map fun x => (x.toNat : Int)) := by
  induction a generalizing b with
  | nil =>
    cases b with
    | nil => simp [binaryCompare, memcmp]
    | cons y b => simp [binaryCompare, memcmp]
  | cons x a ih =>
    cases b with
    | nil => simp [binaryCompare, memcmp]
    | cons y b =>
      rw [binaryCompare_cons, List.map_cons, List.map_cons, List.cons_lt_cons_iff,
        List.cons_lt_cons_iff]
      by_cases hxy : x < y
      · have hlt : x.toNat < y.toNat := hxy
        have hne : x.toNat ≠ y.toNat := by omega
        simp [hxy, hlt, Ne.symm hne, Nat.le_of_lt hlt]
      by_cases hyx : y < x
      · have hlt : y.toNat < x.toNat := hyx
        have hne : x.toNat ≠ y.toNat := by omega
        simp [hxy, hyx, hlt, hne, Nat.le_of_lt hlt]
      · have heq : x = y := UInt8.le_antisymm (UInt8.not_lt.mp hyx) (UInt8.not_lt.mp hxy)
        simp [heq, ih b]

theorem orders_string : Orders F .T_STRING ukMeta a b := by
  have hlt : ∀ x y : List Int, ([x] : List (List Int)) < [y] ↔ x < y := by
    intro x y
    simp [List.cons_lt_cons_iff]
  have hspec := binaryCompare_spec a b
  refine ⟨⟨_, rfl, ?_, ?_⟩, ?_, ?_, fun h => ?_⟩
  · rw [hspec.1]
    exact (hlt _ _).symm
  · rw [hspec.2]
    exact (hlt _ _).symm
  · show Except.ok (decide (0 < binaryCompare a b)) = _
    simp only [hspec.2]
    simp only [keyValue, hlt]
  · show (a == b) = decide (a = b)
    rw [beq_eq_decide]
  · have hmap : (a.map fun x => (x.toNat : Int)) = b.map fun x => (x.toNat : Int) := by
      simpa [keyValue] using h
    exact List.map_injective_iff.mpr (fun x y hxy => UInt8.toNat_inj.mp (by exact_mod_cast hxy)) hmap

end DBStream.Native
