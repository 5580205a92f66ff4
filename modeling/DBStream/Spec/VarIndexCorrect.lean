import DBStream.Spec.IndexFind
import DBStream.Spec.IndexPage
import Mathlib.Algebra.Order.BigOperators.Group.List

/-!
# The variable page of an index

The page of `createVarSolidIndex` is read back as the entries of the index.  What can go wrong
comes before it: a key whose length does not fit 16 bits is cut, the old value of a string that has
moved is read with a wrong length, the key of an old image does not fit its buffer, and
`unionKey::compare` does not order all keys.
-/

namespace DBStream.Native

open Grouping SolidIndex VarSolidIndex

/-! ## Keys -/

/-- The keys of the variable layout: a column of a binary type, or several columns that are not all
    fixed. -/
def VarKey (columns : List UniqueKeyTypePair) : Prop :=
  (∃ c, columns = [c] ∧ c.type ∈ [.T_BLOB, .T_STRING, .T_BINARY, .T_TEXT]) ∨
    (2 ≤ columns.length ∧ ¬ columns.all fun c => c.type.fixed)

/-- The columns an index can do with: of a `BLOB` it would keep the pointer, and it aborts on
    `BINARY` and `TEXT`. -/
def Supported (columns : List UniqueKeyTypePair) : Prop :=
  ∀ c ∈ columns, c.type = .T_STRING ∨ (c.type.fixed ∧ c.type ≠ .T_BLOB)

/-- The lengths of the strings of an image fit 16 bits. -/
def Row.Short (r : Row) (old : Bool) (columns : List UniqueKeyTypePair) : Prop :=
  ∀ c ∈ columns, c.type = .T_STRING → (r.readVar old c).length < 2 ^ 16

/-- The value of a column of an image, as the index reads it. -/
def Row.value (r : Row) (old : Bool) (c : UniqueKeyTypePair) : List Int :=
  let d := r.readVar old c
  if c.type = .T_STRING then d.map fun b => (b.toNat : Int) else columnValue c.type d

/-- The bytes a record has as a column of its new or of its old image. -/
def DMLRecord.image (r : DMLRecord) (old : Bool) (columnId : Nat) : Option (List UInt8) :=
  if old then r.oldValue columnId else r.newColumn columnId

/-- The value of a column of an image, as the record has it. -/
def DMLRecord.value (r : DMLRecord) (old : Bool) (c : UniqueKeyTypePair) : List Int :=
  let d := (r.image old c.columnId).getD []
  if c.type = .T_STRING then d.map fun b => (b.toNat : Int) else columnValue c.type d

variable {F : FloatOps} {t : ColumnType} {ukMeta : UnionKeyMeta} {key : Key} {r : Row}
  {old : Bool} {c : UniqueKeyTypePair} {columns : List UniqueKeyTypePair} {index : AppendingIndex}

private theorem columnValue_take (hfixed : t.fixed) (hblob : t ≠ .T_BLOB) {a b : List UInt8}
    (h : a.take t.columnTypeSize = b.take t.columnTypeSize) : columnValue t a = columnValue t b := by
  have hint : intValue t a = intValue t b := by
    unfold intValue
    rw [h]
  have hfloat : floatValue t a = floatValue t b := by
    unfold floatValue
    rw [h]
  unfold columnValue
  split
  · rw [hfloat]
  · rw [hfloat]
  · cases hfixed
  · exact absurd rfl hblob
  · rw [hint]

/-- The value of a column is read back from a key. -/
theorem initColumn_value (hc : c.type = .T_STRING ∨ (c.type.fixed ∧ c.type ≠ .T_BLOB))
    (hshort : c.type = .T_STRING → (r.readVar old c).length < 2 ^ 16) {d : List UInt8}
    (h : UnionKey.initColumn r old c = .ok d) (rest : List UInt8) :
    columnValue c.type (d ++ rest) = r.value old c ∧
      UnionKey.skipColumn c.type (d ++ rest) = rest := by
  obtain hstring | ⟨hfixed, hblob⟩ := hc
  · have hlt := hshort hstring
    have hcut : d = LE.bytes 2 (r.readVar old c).length ++ r.readVar old c := by
      rw [UnionKey.initColumn, hstring] at h
      cases h
      rw [Nat.mod_eq_of_lt hlt, List.take_length]
    have hlen : LE.nat ((d ++ rest).take 2) = (r.readVar old c).length := by
      rw [hcut, List.append_assoc, List.take_left' (LE.length_bytes 2 _),
        LE.nat_bytes_of_lt (by omega)]
    constructor
    · rw [Row.value, if_pos hstring, hstring]
      show ((d ++ rest).slice 2 (LE.nat ((d ++ rest).take 2))).map _ = _
      rw [hlen, hcut, List.append_assoc, List.slice_append_mid _ (LE.length_bytes 2 _) rfl]
    · rw [UnionKey.skipColumn, hstring]
      rw [hlen, hcut]
      exact List.drop_left' (by simp)
  · rw [UnionKey.initColumn, if_pos hfixed] at h
    have hlen := Row.length_readFixed h
    obtain ⟨image, himage, htake⟩ := Exec.of_bind h
    have hsome := deref_eq_ok himage
    have hd : d = image.take c.type.columnTypeSize := by
      split at htake
      · exact (Except.ok.inj htake).symm
      · cases htake
    have hnot : c.type ≠ .T_STRING := by
      intro hstring
      rw [hstring] at hfixed
      cases hfixed
    constructor
    · rw [Row.value, if_neg hnot, Row.readVar, hsome]
      apply columnValue_take hfixed hblob
      rw [List.take_append_of_le_length (by omega), hd, List.take_take, Nat.min_self]
      rfl
    · rw [UnionKey.skipColumn, if_pos hfixed]
      exact List.drop_left' hlen

private theorem initColumns_value (hsupp : Supported columns) (hshort : r.Short old columns)
    {ds : List (List UInt8)} (h : columns.mapM (UnionKey.initColumn r old) = .ok ds) :
    columnValues columns ds.flatten = columns.map (r.value old) := by
  induction columns generalizing ds with
  | nil => rfl
  | cons c columns ih =>
    rw [List.mapM_cons] at h
    obtain ⟨d, hd, h⟩ := Exec.of_bind h
    obtain ⟨ds', hds, hret⟩ := Exec.of_bind h
    cases hret
    obtain ⟨hvalue, hskip⟩ := initColumn_value (hsupp c List.mem_cons_self)
      (hshort c List.mem_cons_self) hd ds'.flatten
    rw [List.flatten_cons, columnValues, hvalue, hskip, List.map_cons,
      ih (fun c hc => hsupp c (List.mem_cons_of_mem _ hc))
        (fun c hc => hshort c (List.mem_cons_of_mem _ hc)) hds]

theorem length_initColumns_mod {ds : List (List UInt8)}
    (h : columns.mapM (UnionKey.initColumn r old) = .ok ds) :
    ds.flatten.length % 2 ^ 16 = ((columns.map UnionKeyMeta.columnSize).sum +
      ((columns.filter fun c => !c.type.fixed).map fun c =>
        (r.readVar old c).length).sum) % 2 ^ 16 := by
  induction columns generalizing ds with
  | nil =>
    cases h
    rfl
  | cons c columns ih =>
    rw [List.mapM_cons] at h
    obtain ⟨d, hd, h⟩ := Exec.of_bind h
    obtain ⟨ds', hds, hret⟩ := Exec.of_bind h
    cases hret
    have hrest := ih hds
    rw [List.flatten_cons, List.length_append, List.map_cons, List.sum_cons]
    by_cases hfixed : c.type.fixed = true
    · rw [UnionKey.initColumn, if_pos hfixed] at hd
      have hlen := Row.length_readFixed hd
      rw [List.filter_cons_of_neg (by simp [hfixed]), UnionKeyMeta.columnSize, if_pos hfixed]
      omega
    · rw [UnionKey.initColumn, if_neg hfixed] at hd
      have hlen : d.length = 2 + (r.readVar old c).length % 2 ^ 16 := by
        cases hd
        have hmod := Nat.mod_le (r.readVar old c).length (2 ^ 16)
        rw [List.length_append, LE.length_bytes, List.length_take]
        omega
      rw [List.filter_cons_of_pos (by simp [hfixed]), UnionKeyMeta.columnSize, if_neg hfixed,
        List.map_cons, List.sum_cons]
      omega

theorem ofRow_var (hvar : ¬ columns.all fun c => c.type.fixed)
    (h : UnionKey.ofRow (UnionKeyMeta.createUnionKey columns) r old = .ok key) :
    ∃ ds, columns.mapM (UnionKey.initColumn r old) = .ok ds ∧ ds.flatten.length < 2 ^ 16 ∧
      key = LE.bytes 2 ds.flatten.length ++ ds.flatten ∧ old = false := by
  have hmeta : (UnionKeyMeta.createUnionKey columns).fixed = false := eq_false_of_ne_true hvar
  obtain ⟨ds, hds, hret⟩ := Exec.of_bind h
  have hmod := length_initColumns_mod hds
  have hsize : UnionKey.memSize (UnionKeyMeta.createUnionKey columns) r old =
      ds.flatten.length % 2 ^ 16 := by
    rw [hmod, UnionKey.memSize, hmeta]
    simp only [Bool.false_eq_true, if_false, UnionKeyMeta.createUnionKey]
    omega
  rw [hsize, hmeta] at hret
  simp only [Bool.false_eq_true, if_false, false_or] at hret
  have hmod := Nat.mod_le ds.flatten.length (2 ^ 16)
  have hlen : (LE.bytes 2 (ds.flatten.length % 2 ^ 16) ++ ds.flatten).length =
      2 + ds.flatten.length := by
    rw [List.length_append, LE.length_bytes]
  cases old with
  | true =>
    -- an old image has no room for the length in front
    rw [if_neg (by rw [hlen]; simp only [if_true]; omega)] at hret
    cases hret
  | false =>
    simp only [Bool.false_eq_true, if_false] at hret
    split at hret
    case isTrue hle =>
      cases hret
      -- the columns are not longer than what is left of their length
      have hflat : ds.flatten.length = ds.flatten.length % 2 ^ 16 := by
        omega
      refine ⟨ds, hds, by omega, ?_, rfl⟩
      rw [← hflat]
    case isFalse => cases hret

def IsVarKey (t : ColumnType) (key : Key) : Prop :=
  if t = .T_UNION then ∃ content, content.length < 2 ^ 16 ∧ key = LE.bytes 2 content.length ++ content
  else key.length < 2 ^ 16

theorem IsVarKey.content (h : IsVarKey t key) : ∃ content, content.length < 2 ^ 16 ∧
    AppendingIndex.varKey t key = LE.bytes 2 content.length ++ content ∧
    ∀ rest, readKey t (AppendingIndex.varKey t key ++ rest) = key := by
  have hnat : ∀ content rest : List UInt8, content.length < 2 ^ 16 →
      LE.nat ((LE.bytes 2 content.length ++ (content ++ rest)).take 2) = content.length := by
    intro content rest hlt
    rw [List.take_left' (LE.length_bytes 2 _), LE.nat_bytes_of_lt (by omega)]
  unfold IsVarKey at h
  unfold AppendingIndex.varKey readKey
  split at h
  · rename_i hunion
    obtain ⟨content, hlt, hkey⟩ := h
    have hlen : LE.nat (key.take 2) = content.length := by
      have := hnat content [] hlt
      rwa [List.append_nil, ← hkey] at this
    have hall : key.take (2 + LE.nat (key.take 2)) = key := by
      apply List.take_of_length_le
      rw [hlen, hkey, List.length_append, LE.length_bytes]
    refine ⟨content, hlt, by rw [if_pos hunion, hall, hkey], fun rest => ?_⟩
    have hlen' : LE.nat ((key ++ rest).take 2) = content.length := by
      have := hnat content rest hlt
      rwa [← List.append_assoc, ← hkey] at this
    rw [if_pos hunion, if_pos hunion, hall, hlen']
    apply List.take_left'
    rw [hkey, List.length_append, LE.length_bytes]
  · rename_i hunion
    refine ⟨key, h, by rw [if_neg hunion], fun rest => ?_⟩
    rw [if_neg hunion, if_neg hunion, List.append_assoc, hnat key rest h]
    exact List.slice_append_mid rest (LE.length_bytes 2 _) rfl

/-- What is known of a key of the variable layout. -/
structure VarType (ukMeta : UnionKeyMeta) : Prop where
  new : AppendingIndex.create ukMeta = .ok (AppendingIndex.ofEntries ukMeta [])
  page : ∀ index : AppendingIndex, index.m_type = AppendingIndex.typeOf ukMeta →
    index.createSolidIndexPage = index.toString
  type : AppendingIndex.typeOf ukMeta = .T_STRING ∨ (AppendingIndex.typeOf ukMeta = .T_UNION ∧
    AppendingIndex.keySize ukMeta = ukMeta.size ∧ ukMeta.fixed = false)
  notFixed : AppendingIndex.isFixed ukMeta = false

theorem varType (hkey : VarKey columns) (hsupp : Supported columns) :
    VarType (UnionKeyMeta.createUnionKey columns) := by
  obtain ⟨c, rfl, hbinary⟩ | ⟨hlen, hvar⟩ := hkey
  · have hstring : c.type = .T_STRING := by
      obtain hstring | ⟨hfixed, hblob⟩ := hsupp c List.mem_cons_self
      · exact hstring
      · cases hc : c.type <;> rw [hc] at hbinary hfixed hblob <;> simp_all [ColumnType.fixed]
    have htype : AppendingIndex.typeOf (UnionKeyMeta.createUnionKey [c]) = .T_STRING := hstring
    refine ⟨?_, fun index hm => ?_, Or.inl htype, ?_⟩
    · unfold AppendingIndex.create AppendingIndex.ofEntries
      rw [htype]
      rfl
    · unfold AppendingIndex.createSolidIndexPage
      rw [hm, htype]
    · show c.type.fixed = false
      rw [hstring]
      rfl
  · have htype : AppendingIndex.typeOf (UnionKeyMeta.createUnionKey columns) = .T_UNION :=
      typeOf_union hlen
    refine ⟨?_, fun index hm => ?_, Or.inr ⟨htype, keySize_union hlen, eq_false_of_ne_true hvar⟩, ?_⟩
    · unfold AppendingIndex.create AppendingIndex.ofEntries
      rw [htype]
      rfl
    · unfold AppendingIndex.createSolidIndexPage
      rw [hm, htype]
    · rw [isFixed_union hlen]
      simpa [UnionKeyMeta.createUnionKey] using hvar

/-- The key of a record has the values of its columns, if they are short. -/
theorem keyOf_var (hkey : VarKey columns) (hsupp : Supported columns)
    (ht : index.m_type = AppendingIndex.typeOf (UnionKeyMeta.createUnionKey columns))
    (hm : index.m_ukMeta = UnionKeyMeta.createUnionKey columns)
    (h : index.keyOf r old = .ok key) :
    IsVarKey (AppendingIndex.typeOf (UnionKeyMeta.createUnionKey columns)) key ∧
      (old = true → ∃ c, columns = [c]) ∧
      (r.Short old columns → keyValue (AppendingIndex.typeOf (UnionKeyMeta.createUnionKey columns))
        (UnionKeyMeta.createUnionKey columns) key = columns.map (r.value old)) := by
  obtain ⟨c, rfl, hbinary⟩ | ⟨hlen, hvar⟩ := hkey
  · have hstring : c.type = .T_STRING := by
      obtain hstring | ⟨hfixed, hblob⟩ := hsupp c List.mem_cons_self
      · exact hstring
      · cases hc : c.type <;> rw [hc] at hbinary hfixed hblob <;> simp_all [ColumnType.fixed]
    have htype : AppendingIndex.typeOf (UnionKeyMeta.createUnionKey [c]) = .T_STRING := hstring
    have hcut : key = (r.readVar old c).take ((r.readVar old c).length % 2 ^ 16) := by
      unfold AppendingIndex.keyOf at h
      rw [ht, htype, hm] at h
      exact (Except.ok.inj h).symm
    rw [htype]
    constructor
    · show key.length < 2 ^ 16
      rw [hcut, List.length_take]
      omega
    · refine ⟨fun _ => ⟨c, rfl⟩, fun hshort => ?_⟩
      rw [Nat.mod_eq_of_lt (hshort c List.mem_cons_self hstring), List.take_length] at hcut
      rw [List.map_singleton, Row.value, if_pos hstring, hcut]
      rfl
  · have htype : AppendingIndex.typeOf (UnionKeyMeta.createUnionKey columns) = .T_UNION :=
      typeOf_union hlen
    rw [AppendingIndex.keyOf, ht, hm, htype] at h
    obtain ⟨ds, hds, hlt, hflat, hnew⟩ := ofRow_var hvar h
    rw [htype]
    refine ⟨⟨ds.flatten, hlt, hflat⟩, fun hold => ?_, fun hshort => ?_⟩
    · rw [hnew] at hold
      cases hold
    have hmeta : (UnionKeyMeta.createUnionKey columns).fixed = false := eq_false_of_ne_true hvar
    rw [← initColumns_value hsupp hshort hds, keyValue, hmeta, hflat]
    rfl

/-! ## What is read -/

/-- The page read back is the entries. -/
structure VarPage (t : ColumnType) (d : List UInt8) (entries : List (Key × List Nat)) : Prop where
  keyCount : getKeyCount d = entries.length
  key : ∀ i e, entries[i]? = some e → ∃ p, VarSolidIndex.getKey d i = .ok p ∧ readKey t p = e.1
  recordIds : ∀ i e, entries[i]? = some e → VarSolidIndex.getRecordIdByIndex d i = .ok e.2

namespace AppendingIndex

/-- What an index with variable keys is about. -/
structure VarEntries (t : ColumnType) (entries : List (Key × List Nat)) : Prop where
  keys : ∀ e ∈ entries, IsVarKey t e.1
  nonempty : ∀ e ∈ entries, e.2 ≠ []
  ids : ∀ e ∈ entries, ∀ id ∈ e.2, id < 2 ^ 32

/-- `toSolidIndexSize`, if it fits 32 bits. -/
def varReserved (ukMeta : UnionKeyMeta) (entries : List (Key × List Nat)) : Nat :=
  solidIndexHeadSize + (keySize ukMeta + 2 * 4) * (1 + entries.length) +
    (2 + 4) * (entries.map fun e => e.2.length).sum + (ofEntries ukMeta entries).m_varSize

/-! ## The sizes -/

variable {entries pre post : List (Key × List Nat)} {e : Key × List Nat} {d : List UInt8} {off : Nat}

def entriesSize (t : ColumnType) (entries : List (Key × List Nat)) : Nat :=
  (entries.map fun e => (varEntry t e).length).sum

/-- The place where the entries start. -/
def entryPos (keyCount : Nat) : Nat := solidIndexHeadSize + 4 * (keyCount + 1)

theorem length_entries (t : ColumnType) (entries : List (Key × List Nat)) :
    (entries.flatMap (varEntry t)).length = entriesSize t entries := by
  rw [List.length_flatMap]
  rfl

theorem length_varOffsets (t : ColumnType) (entries : List (Key × List Nat)) (off : Nat) :
    (varOffsets t entries off).length = 4 * (entries.length + 1) := by
  induction entries generalizing off with
  | nil => simp [varOffsets]
  | cons x entries ih =>
    rw [varOffsets, List.length_append, LE.length_bytes, ih, List.length_cons]
    omega

private theorem varOffsets_append (t : ColumnType) (pre post : List (Key × List Nat)) (off : Nat) :
    ∃ front, front.length = 4 * pre.length ∧
      varOffsets t (pre ++ post) off = front ++ varOffsets t post (off + entriesSize t pre) := by
  induction pre generalizing off with
  | nil => exact ⟨[], rfl, rfl⟩
  | cons x pre ih =>
    obtain ⟨front, hlen, hfront⟩ := ih (off + (varEntry t x).length)
    refine ⟨LE.bytes 4 off ++ front, by simp [hlen]; omega, ?_⟩
    rw [List.cons_append, varOffsets, hfront, List.append_assoc]
    simp [entriesSize, Nat.add_assoc]

theorem length_varEntry_le (htype : VarType ukMeta) (hkey : IsVarKey (typeOf ukMeta) e.1) :
    (varEntry (typeOf ukMeta) e).length ≤ keySize ukMeta +
      varSizeOf { m_type := typeOf ukMeta, m_ukMeta := ukMeta } e.1 + 6 + 4 * e.2.length := by
  obtain ⟨content, hlt, hcontent, hread⟩ := hkey.content
  rw [varEntry, hcontent]
  simp only [List.length_append, LE.length_bytes, length_words]
  have hsize : content.length ≤ keySize ukMeta +
      varSizeOf { m_type := typeOf ukMeta, m_ukMeta := ukMeta } e.1 := by
    obtain hstring | ⟨hunion, hkeySize, hfixed⟩ := htype.type
    · rw [hstring, varKey, if_neg (by decide)] at hcontent
      have hlen := congrArg List.length hcontent
      simp only [List.length_append, LE.length_bytes] at hlen
      rw [varSizeOf, hstring]
      show content.length ≤ keySize ukMeta + e.1.length
      omega
    · have hprefix : LE.nat (e.1.take 2) = content.length := by
        rw [hunion] at hkey
        obtain ⟨content', hlt', hkey'⟩ := hkey
        rw [hunion, varKey, if_pos rfl, hkey', List.take_left' (LE.length_bytes 2 _),
          LE.nat_bytes_of_lt (by omega)] at hcontent
        have hlen := congrArg List.length hcontent
        simp only [List.length_append, LE.length_bytes, List.length_take] at hlen
        rw [hkey', List.take_left' (LE.length_bytes 2 _), LE.nat_bytes_of_lt (by omega)]
        omega
      rw [varSizeOf, hunion]
      rw [hfixed, hprefix, hkeySize]
      simp only [Bool.false_eq_true, if_false]
      omega
  omega

theorem entriesSize_le (htype : VarType ukMeta)
    (hkeys : ∀ e ∈ entries, IsVarKey (typeOf ukMeta) e.1) :
    entriesSize (typeOf ukMeta) entries ≤ (keySize ukMeta + 6) * entries.length +
      (ofEntries ukMeta entries).m_varSize + 4 * (entries.map fun e => e.2.length).sum := by
  induction entries with
  | nil => exact Nat.zero_le _
  | cons x entries ih =>
    have hx := length_varEntry_le htype (hkeys x List.mem_cons_self)
    have hrest := ih fun e he => hkeys e (List.mem_cons_of_mem x he)
    simp only [entriesSize, ofEntries, List.map_cons, List.sum_cons, List.length_cons] at hrest ⊢
    rw [Nat.mul_add]
    omega

theorem le_bufferSize (size : Nat) : size ≤ bufferSize size := by
  unfold bufferSize
  cases hlevel : pageSizeList.find? fun level => size ≤ level with
  | none => exact le_refl size
  | some level =>
    have hle := List.find?_some hlevel
    exact of_decide_eq_true hle

theorem length_createVarSolidIndex (htype : VarType ukMeta)
    (hentries : VarEntries (typeOf ukMeta) entries) (hfits : varReserved ukMeta entries < 2 ^ 32) :
    (ofEntries ukMeta entries).createVarSolidIndex.length =
        entryPos entries.length + entriesSize (typeOf ukMeta) entries ∧
      entryPos entries.length + entriesSize (typeOf ukMeta) entries < 2 ^ 32 ∧
      entryPos entries.length + entriesSize (typeOf ukMeta) entries ≤
        bufferSize (ofEntries ukMeta entries).toSolidIndexSize := by
  have hlength : (ofEntries ukMeta entries).createVarSolidIndex.length =
      entryPos entries.length + entriesSize (typeOf ukMeta) entries := by
    unfold createVarSolidIndex
    simp only [List.length_append, length_solidIndexHead, length_varOffsets, length_entries]
    unfold entryPos
    show solidIndexHeadSize + (4 * (entries.length + 1) + entriesSize (typeOf ukMeta) entries) = _
    omega
  have hreserved : (ofEntries ukMeta entries).toSolidIndexSize = varReserved ukMeta entries := by
    unfold toSolidIndexSize
    rw [if_neg (by
      rw [show (ofEntries ukMeta entries).m_ukMeta = ukMeta from rfl, htype.notFixed]
      decide)]
    exact Nat.mod_eq_of_lt hfits
  have hsize := entriesSize_le htype hentries.keys
  have hcount : entries.length ≤ (entries.map fun e => e.2.length).sum := by
    have hone := List.length_le_sum_of_one_le (entries.map fun e => e.2.length) (by
      intro n hn
      obtain ⟨e, he, rfl⟩ := List.mem_map.mp hn
      exact List.length_pos_of_ne_nil (hentries.nonempty e he))
    rwa [List.length_map] at hone
  have hle : entryPos entries.length + entriesSize (typeOf ukMeta) entries ≤
      varReserved ukMeta entries := by
    unfold entryPos varReserved
    rw [Nat.add_mul] at hsize
    have hreserve : (keySize ukMeta + 2 * 4) * (1 + entries.length) =
        keySize ukMeta * entries.length + 8 * entries.length + (keySize ukMeta + 8) := by ring
    omega
  refine ⟨hlength, by omega, ?_⟩
  rw [hreserved]
  exact hle.trans (le_bufferSize _)

/-! ## Reading it back -/

def varFront (ukMeta : UnionKeyMeta) (entries : List (Key × List Nat)) : List UInt8 :=
  solidIndexHead (entryPos entries.length + entriesSize (typeOf ukMeta) entries) entries.length
    (if typeOf ukMeta = .T_UNION then .T_UNION else .T_BINARY) 0 4 ++
  varOffsets (typeOf ukMeta) entries (entryPos entries.length)

theorem createVarSolidIndex_eq (ukMeta : UnionKeyMeta) (entries : List (Key × List Nat)) :
    (ofEntries ukMeta entries).createVarSolidIndex =
      varFront ukMeta entries ++ entries.flatMap (varEntry (typeOf ukMeta)) := by
  rw [varFront, ← length_entries, List.append_assoc]
  rfl

theorem createVarSolidIndex_entry (ukMeta : UnionKeyMeta) (hsplit : entries = pre ++ e :: post) :
    ∃ front rest, front.length = entryPos entries.length + entriesSize (typeOf ukMeta) pre ∧
      (ofEntries ukMeta entries).createVarSolidIndex =
        front ++ (varEntry (typeOf ukMeta) e ++ rest) := by
  have hentries : entries.flatMap (varEntry (typeOf ukMeta)) =
      pre.flatMap (varEntry (typeOf ukMeta)) ++ (varEntry (typeOf ukMeta) e ++
        post.flatMap (varEntry (typeOf ukMeta))) := by
    rw [hsplit, List.flatMap_append, List.flatMap_cons]
  rw [createVarSolidIndex_eq, hentries, ← List.append_assoc]
  refine ⟨varFront ukMeta entries ++ pre.flatMap (varEntry (typeOf ukMeta)), _, ?_, rfl⟩
  simp only [varFront, List.length_append, length_solidIndexHead, length_varOffsets,
    length_entries, entryPos]

theorem word_varOffsets (hsplit : entries = pre ++ e :: post)
    (hlt : entryPos entries.length + entriesSize (typeOf ukMeta) entries < 2 ^ 32)
    (hd : d = (ofEntries ukMeta entries).createVarSolidIndex) :
    word d (solidIndexHeadSize + 4 * pre.length) =
      .ok (entryPos entries.length + entriesSize (typeOf ukMeta) pre) := by
  obtain ⟨front, hfront, htable⟩ := varOffsets_append (typeOf ukMeta) pre (e :: post)
    (entryPos entries.length)
  have hle : entriesSize (typeOf ukMeta) pre ≤ entriesSize (typeOf ukMeta) entries := by
    rw [hsplit, entriesSize, entriesSize, List.map_append, List.sum_append]
    omega
  rw [← hsplit, varOffsets] at htable
  rw [hd, createVarSolidIndex_eq, varFront, htable]
  simp only [List.append_assoc]
  rw [← List.append_assoc]
  apply word_append _ (by omega)
  rw [List.length_append, length_solidIndexHead, hfront]

/-- The page has its entries in their order, each at its offset. -/
theorem varPage (htype : VarType ukMeta) (hentries : VarEntries (typeOf ukMeta) entries)
    (hfits : varReserved ukMeta entries < 2 ^ 32) :
    VarPage (typeOf ukMeta) (ofEntries ukMeta entries).createVarSolidIndex entries := by
  obtain ⟨-, hlt, -⟩ := length_createVarSolidIndex htype hentries hfits
  constructor
  · have hcount : entries.length < 2 ^ 32 := by
      unfold entryPos at hlt
      omega
    rw [createVarSolidIndex_eq, varFront, List.append_assoc, getKeyCount_head _ _ _ _ _ _ hcount]
  · intro i e he
    obtain ⟨pre, post, hpre, rfl⟩ := List.exists_append_cons_of_getElem? he
    obtain ⟨front, rest, hfront, hpage⟩ := createVarSolidIndex_entry ukMeta hpre
    obtain ⟨content, -, -, hread⟩ := (hentries.keys e (by simp [hpre])).content
    refine ⟨varEntry (typeOf ukMeta) e ++ rest, ?_, ?_⟩
    · rw [VarSolidIndex.getKey, word_varOffsets hpre hlt rfl, Exec.ok_bind, hpage]
      exact pointer_append hfront _
    · rw [varEntry, List.append_assoc]
      exact hread _
  · intro i e he
    obtain ⟨pre, post, hpre, rfl⟩ := List.exists_append_cons_of_getElem? he
    have hmem : e ∈ entries := by simp [hpre]
    obtain ⟨front, rest, hfront, hpage⟩ := createVarSolidIndex_entry ukMeta hpre
    obtain ⟨content, hshort, hkey, -⟩ := (hentries.keys e hmem).content
    have hsize : LE.nat ((varEntry (typeOf ukMeta) e ++ rest).take 2) = content.length := by
      rw [varEntry, hkey]
      simp only [List.append_assoc]
      rw [List.take_left' (LE.length_bytes 2 _), LE.nat_bytes_of_lt (by omega)]
    have hcount : e.2.length < 2 ^ 32 := by
      have hle : (varEntry (typeOf ukMeta) e).length ≤ entriesSize (typeOf ukMeta) entries :=
        List.le_sum_of_mem (List.mem_map_of_mem hmem)
      rw [varEntry, List.length_append, List.length_append, length_words] at hle
      omega
    -- front, length and contents of the key, then the count and the ids
    have hat : (ofEntries ukMeta entries).createVarSolidIndex =
        (front ++ (LE.bytes 2 content.length ++ content)) ++ (LE.bytes 4 e.2.length ++
          (words e.2 ++ rest)) := by
      rw [hpage, varEntry, hkey]
      simp
    have hlen : (front ++ (LE.bytes 2 content.length ++ content)).length =
        entryPos entries.length + entriesSize (typeOf ukMeta) pre + content.length + 2 + 4 - 4 := by
      simp only [List.length_append, LE.length_bytes, hfront]
      omega
    rw [VarSolidIndex.getRecordIdByIndex, word_varOffsets hpre hlt rfl, Exec.ok_bind]
    have hpointer : pointer (ofEntries ukMeta entries).createVarSolidIndex
        (entryPos entries.length + entriesSize (typeOf ukMeta) pre) =
          .ok (varEntry (typeOf ukMeta) e ++ rest) := by
      rw [hpage]
      exact pointer_append hfront _
    rw [hpointer, Exec.ok_bind, hsize]
    simp only
    rw [hat, word_append hlen hcount, Exec.ok_bind, ← List.append_assoc]
    apply wordsAt_append _ (hentries.ids e hmem)
    rw [List.length_append, hlen, LE.length_bytes]
    omega

/-! ## The page of the records -/

variable {records : List (DMLRecord × Nat)} {events : List (Key × Nat)}

/-- An image of which the key goes into the index. -/
def Indexed (ukMeta : UnionKeyMeta) (r : DMLRecord) (old : Bool) : Prop :=
  old = true → (Row.ofRecord r).keyUpdate ukMeta = true

/-- The page of the records is read back as their keys, which are the values the records have in
    the columns, each with its record ids. -/
def VarDecodes (F : FloatOps) (ukMeta : UnionKeyMeta) (records : List (DMLRecord × Nat)) : Prop :=
  ∃ index d events entries,
    (create ukMeta >>= fun index => appendAll F index (rowsOf records)) = .ok index ∧
    index.createSolidIndexPage = .ok d ∧
    (ofEntries ukMeta []).eventsOf (rowsOf records) = .ok events ∧
    (∀ x ∈ records, ∀ old key, Indexed ukMeta x.1 old →
      (ofEntries ukMeta []).keyOf (Row.ofRecord x.1) old = .ok key →
      keyValue (typeOf ukMeta) ukMeta key = ukMeta.columnInfo.map (x.1.value old)) ∧
    Groups (keyValue (typeOf ukMeta) ukMeta) events entries ∧ VarPage (typeOf ukMeta) d entries

/-- The columns can be in an index, no string of a key is longer than 16 bits tell, an old string
    starts where `_varColumnSize` takes it to, no record updates a key of several columns (the key
    of its old image does not fit its buffer), the keys of several columns compare as their values
    do, and the size of the page fits 32 bits. -/
structure VarRecords (F : FloatOps) (columns : List UniqueKeyTypePair)
    (records : List (DMLRecord × Nat)) (events : List (Key × Nat)) : Prop where
  supported : Supported columns
  hasColumns : ∀ x ∈ records, ∀ c ∈ columns, HasColumn c x.1
  short : ∀ x ∈ records, ∀ old, Indexed (UnionKeyMeta.createUnionKey columns) x.1 old →
    ∀ c ∈ columns, c.type = .T_STRING → ∀ d, x.1.image old c.columnId = some d → d.length < 2 ^ 16
  start : ∀ x ∈ records, ∀ c ∈ columns, c.type = .T_STRING →
    x.1.updatesKey c.columnId = true → x.1.SameStart c.columnId
  read : (ofEntries (UnionKeyMeta.createUnionKey columns) []).eventsOf (rowsOf records) = .ok events
  orders : typeOf (UnionKeyMeta.createUnionKey columns) = .T_UNION →
    OrdersAll F .T_UNION (UnionKeyMeta.createUnionKey columns) (events.map Prod.fst)
  fits : ∀ entries, Groups (keyValue (typeOf (UnionKeyMeta.createUnionKey columns))
    (UnionKeyMeta.createUnionKey columns)) events entries →
    varReserved (UnionKeyMeta.createUnionKey columns) entries < 2 ^ 32

theorem varEntries (hkey : VarKey columns) (hsupp : Supported columns)
    (hrows : Admitted (rowsOf records))
    (hread : (ofEntries (UnionKeyMeta.createUnionKey columns) []).eventsOf (rowsOf records) =
      .ok events)
    (hg : Groups (keyValue (typeOf (UnionKeyMeta.createUnionKey columns))
      (UnionKeyMeta.createUnionKey columns)) events entries) :
    VarEntries (typeOf (UnionKeyMeta.createUnionKey columns)) entries := by
  constructor
  · intro e he
    obtain ⟨x, hx, hek⟩ := (hg.keys e.1).mp ⟨e, he, rfl⟩
    obtain ⟨r, -, old, hold, -⟩ := mem_eventsOf hread hx
    rw [← hek]
    exact (keyOf_var hkey hsupp rfl rfl hold).1
  · intro e he
    exact hg.ne_nil he
  · intro e he id hid
    obtain ⟨r, hr, -, -, heq⟩ := mem_eventsOf hread (hg.mem_values he hid)
    have hlt := hrows.ids r hr
    unfold maxRecordInBlock at hlt
    omega

theorem varIndex_page (hkey : VarKey columns) (hrows : Admitted (rowsOf records))
    (h : VarRecords F columns records events) :
    OrdersAll F (typeOf (UnionKeyMeta.createUnionKey columns))
        (UnionKeyMeta.createUnionKey columns) (events.map Prod.fst) ∧
      ∃ entries, (create (UnionKeyMeta.createUnionKey columns) >>=
          fun index => appendAll F index (rowsOf records)) =
          .ok (ofEntries (UnionKeyMeta.createUnionKey columns) entries) ∧
        (ofEntries (UnionKeyMeta.createUnionKey columns) entries).createSolidIndexPage =
          .ok (ofEntries (UnionKeyMeta.createUnionKey columns) entries).createVarSolidIndex ∧
        Groups (keyValue (typeOf (UnionKeyMeta.createUnionKey columns))
          (UnionKeyMeta.createUnionKey columns)) events entries ∧
        VarEntries (typeOf (UnionKeyMeta.createUnionKey columns)) entries ∧
        varReserved (UnionKeyMeta.createUnionKey columns) entries < 2 ^ 32 := by
  have htype := varType hkey h.supported
  have hord : OrdersAll F (typeOf (UnionKeyMeta.createUnionKey columns))
      (UnionKeyMeta.createUnionKey columns) (events.map Prod.fst) := by
    obtain hstring | ⟨hunion, -⟩ := htype.type
    · rw [hstring]
      exact fun a _ b _ => orders_string
    · rw [hunion]
      exact h.orders hunion
  obtain ⟨entries, hindex, hg⟩ := appendAll_eq htype.new h.read hord
  have hentries := varEntries hkey h.supported hrows h.read hg
  have hfits := h.fits entries hg
  obtain ⟨hlength, -, hroom⟩ := length_createVarSolidIndex htype hentries hfits
  rw [← hlength] at hroom
  have hblob : typeOf (UnionKeyMeta.createUnionKey columns) ≠ .T_BLOB := by
    obtain hstring | ⟨hunion, -⟩ := htype.type <;> simp [*]
  refine ⟨hord, entries, hindex, ?_, hg, hentries, hfits⟩
  rw [htype.page _ rfl]
  exact toString_ofEntries (hg.nonempty (hrows.events_ne_nil h.read)) hblob
    (if_neg (by rw [htype.notFixed]; decide)) hroom

/-- What the index reads of an image whose key it takes is what the record has. -/
theorem VarRecords.image_eq (hkey : VarKey columns) (h : VarRecords F columns records events)
    {y : DMLRecord × Nat} (hy : y ∈ records)
    (hindexed : Indexed (UnionKeyMeta.createUnionKey columns) y.1 old)
    (hold : (ofEntries (UnionKeyMeta.createUnionKey columns) []).keyOf (Row.ofRecord y.1) old =
      .ok key) {c : UniqueKeyTypePair} (hc : c ∈ columns) :
    (Row.ofRecord y.1).image old c.columnId = y.1.image old c.columnId := by
  cases old with
  | false => rfl
  | true =>
    -- the key of an old image is one string
    obtain ⟨c', rfl⟩ := (keyOf_var hkey h.supported rfl rfl hold).2.1 rfl
    obtain rfl := List.mem_singleton.mp hc
    have hupdate := hindexed rfl
    rw [keyUpdate_ofRecord] at hupdate
    apply oldColumn_eq (h.hasColumns y hy c hc) hupdate
    intro hvar
    have hstring := (h.supported c hc).resolve_right fun hfixed => by simp [hvar] at hfixed
    exact h.start y hy c hc hstring hupdate

/-- The records of a block, put into an index with variable keys, are read back from its page. -/
theorem varIndex_decodes (hkey : VarKey columns) (hrows : Admitted (rowsOf records))
    (h : VarRecords F columns records events) :
    VarDecodes F (UnionKeyMeta.createUnionKey columns) records := by
  obtain ⟨-, entries, hindex, hpage, hg, hentries, hfits⟩ := varIndex_page hkey hrows h
  refine ⟨_, _, events, entries, hindex, hpage, h.read, ?_, hg,
    varPage (varType hkey h.supported) hentries hfits⟩
  intro x hx old key hindexed hold
  have himage := fun c hc => h.image_eq hkey hx hindexed hold (c := c) hc
  have hshort : (Row.ofRecord x.1).Short old columns := by
    intro c hc hstring
    rw [Row.readVar, himage c hc]
    cases hd : x.1.image old c.columnId with
    | none => simp
    | some d => exact h.short x hx old hindexed c hc hstring d hd
  rw [(keyOf_var hkey h.supported rfl rfl hold).2.2 hshort]
  apply List.map_congr_left
  intro c hc
  simp only [Row.value, DMLRecord.value, Row.readVar, himage c hc]

/-- Two updates of the same key. -/
def shiftedTwice : List (DMLRecord × Nat) := [(shiftedRecord, 0), (shiftedRecord, 1)]

theorem admitted_shiftedTwice : Admitted (rowsOf shiftedTwice) := by
  refine ⟨by simp [rowsOf, shiftedTwice], by simp [rowsOf, shiftedTwice, maxRecordInBlock], ?_⟩
  intro x hx
  simp only [rowsOf, shiftedTwice, List.map_cons, List.map_nil, List.mem_cons, List.not_mem_nil,
    or_false] at hx
  obtain rfl | rfl := hx <;> simp [maxRecordInBlock]

theorem image_shiftedRecord (old : Bool) : ∃ d, shiftedRecord.image old 1 = some d ∧ d.length ≤ 3 := by
  cases old with
  | false => exact ⟨_, newColumn_shiftedRecord.1, by decide⟩
  | true => exact ⟨_, oldValue_shiftedRecord.1, by decide⟩

/-- The new and the old key of each record are read back, with the ids of both records. -/
theorem varIndex_decodes_shiftedTwice :
    VarDecodes noFloats (UnionKeyMeta.createUnionKey [⟨.T_STRING, 1⟩]) shiftedTwice := by
  have hall : ∀ x ∈ shiftedTwice, x.1 = shiftedRecord := by
    intro x hx
    simp only [shiftedTwice, List.mem_cons, List.not_mem_nil, or_false] at hx
    obtain rfl | rfl := hx <;> rfl
  have hgroups : Groups (keyValue .T_STRING (UnionKeyMeta.createUnionKey [⟨.T_STRING, 1⟩]))
      [([120], 0), ([120, 121, 122], 0), ([120], 1), ([120, 121, 122], 1)]
      [(([120] : Key), [0, 1]), ([120, 121, 122], [0, 1])] := by
    refine ⟨?_, fun g hmem => ?_, fun k => ?_⟩
    · simp [Sorted, keyValue, List.cons_lt_cons_iff]
    · simp only [List.mem_cons, List.not_mem_nil, or_false] at hmem
      obtain rfl | rfl := hmem <;> decide
    · simp only [List.mem_cons, List.not_mem_nil, or_false, exists_eq_or_imp, exists_eq_left]
      tauto
  have hcondition : VarRecords noFloats [⟨.T_STRING, 1⟩] shiftedTwice
      [([120], 0), ([120, 121, 122], 0), ([120], 1), ([120, 121, 122], 1)] := by
    refine ⟨?_, ?_, ?_, ?_, by decide +kernel, fun h => absurd h (by decide),
      fun entries hg => by rw [hg.unique hgroups]; decide⟩
    · intro c hc
      rw [List.mem_singleton.mp hc]
      exact Or.inl rfl
    · intro x hx c hc
      rw [hall x hx, List.mem_singleton.mp hc]
      exact (hasKey_shiftedRecord 1 (.inl rfl)).type
    · intro x hx old _ c hc _ d hd
      rw [hall x hx, List.mem_singleton.mp hc] at hd
      obtain ⟨d', hd', hle⟩ := image_shiftedRecord old
      cases hd'.symm.trans hd
      omega
    · intro x hx c hc _ _ real array hreal harray
      rw [hall x hx, List.mem_singleton.mp hc] at *
      cases hreal
      cases harray
      decide +kernel
  exact varIndex_decodes (Or.inl ⟨_, rfl, by simp⟩) admitted_shiftedTwice hcondition

/-- The insert of a row `(n, "a", "b")` of the table. -/
def numberRecord (n : List UInt8) : DMLRecord where
  mem := memoryOf ([65, 0, 0, 0, 0, 38, 0, 1] ++ List.replicate 30 0 ++ [0, 0, 0, 0, 0, 0, 0, 0] ++
    [7] ++ n ++ [16, 0, 0, 0, 17, 0, 0, 0, 18, 0, 0, 0] ++ [97, 98])
  meta' := smallTable.buildColumnOffsetList
  tableMetaID := 0
  nullBitmap := 46
  columns := 47
  varLengthColumns := 51

def farVarKeys : List (DMLRecord × Nat) :=
  [(numberRecord [0, 0, 0, 0], 0), (numberRecord [1, 0, 0, 128], 1)]

def farVarPage : List UInt8 :=
  [58, 0, 0, 0, 2, 0, 0, 0, 0, 0, 4, 0, 24, 0, 0, 0, 41, 0, 0, 0, 58, 0, 0, 0,
    7, 0, 1, 0, 0, 128, 1, 0, 97, 1, 0, 0, 0, 1, 0, 0, 0,
    7, 0, 0, 0, 0, 0, 1, 0, 97, 1, 0, 0, 0, 0, 0, 0, 0]

/-- The greater one is in front. -/
theorem varIndex_out_of_order :
    VarKey [⟨.T_UINT32, 0⟩, ⟨.T_STRING, 1⟩] ∧ Admitted (rowsOf farVarKeys) ∧
      ¬ VarDecodes noFloats (UnionKeyMeta.createUnionKey [⟨.T_UINT32, 0⟩, ⟨.T_STRING, 1⟩])
        farVarKeys := by
  refine ⟨Or.inr ⟨by decide, by decide⟩, ⟨by simp [rowsOf, farVarKeys],
    by simp [rowsOf, farVarKeys, maxRecordInBlock], ?_⟩, ?_⟩
  · intro x hx
    simp only [rowsOf, farVarKeys, List.map_cons, List.map_nil, List.mem_cons, List.not_mem_nil,
      or_false] at hx
    obtain rfl | rfl := hx <;> simp [maxRecordInBlock]
  rintro ⟨index, d, events, entries, hindex, hd, -, -, hg, hpage⟩
  have hwritten : (create (UnionKeyMeta.createUnionKey [⟨.T_UINT32, 0⟩, ⟨.T_STRING, 1⟩]) >>=
      fun index => appendAll noFloats index (rowsOf farVarKeys)) >>= createSolidIndexPage =
        .ok farVarPage := by
    decide +kernel
  rw [hindex, Exec.ok_bind, hd] at hwritten
  cases hwritten
  -- what is read of the page, first the greater key
  have hfirst : VarSolidIndex.getKey farVarPage 0 = .ok (farVarPage.drop 24) := by decide
  have hsecond : VarSolidIndex.getKey farVarPage 1 = .ok (farVarPage.drop 41) := by decide
  obtain ⟨e, e', rfl⟩ : ∃ e e', entries = [e, e'] := List.length_eq_two.mp hpage.keyCount.symm
  obtain ⟨p, hp, he⟩ := hpage.key 0 e rfl
  obtain ⟨p', hp', he'⟩ := hpage.key 1 e' rfl
  rw [hfirst] at hp
  rw [hsecond] at hp'
  cases hp
  cases hp'
  have hlt := (List.pairwise_cons.mp hg.sorted).1 e' List.mem_cons_self
  rw [← he, ← he'] at hlt
  have hvalue : keyValue .T_UNION (UnionKeyMeta.createUnionKey
      [⟨.T_UINT32, 0⟩, ⟨.T_STRING, 1⟩]) (readKey .T_UNION (farVarPage.drop 24)) =
        [[2147483649], [97]] := by decide
  have hvalue' : keyValue .T_UNION (UnionKeyMeta.createUnionKey
      [⟨.T_UINT32, 0⟩, ⟨.T_STRING, 1⟩]) (readKey .T_UNION (farVarPage.drop 41)) =
        [[0], [97]] := by decide
  have habsurd : ([[2147483649], [97]] : List (List Int)) < [[0], [97]] := by
    rw [← hvalue, ← hvalue']
    exact hlt
  simp [List.cons_lt_cons_iff] at habsurd

end AppendingIndex

end DBStream.Native
