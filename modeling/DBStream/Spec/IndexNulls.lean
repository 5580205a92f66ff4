import DBStream.ForStd.Except
import DBStream.Spec.IndexRoom

/-!
# Null key columns

A null column has no bytes: `column` and `oldColumnOfUpdateType` answer with the null pointer.  The
index reads the value of a fixed column through this pointer without a test; of a variable column it
takes the size first, which is 0.
-/

namespace DBStream.Native

open Except

namespace AppendingIndex

variable {F : FloatOps} {t : ColumnType} {ukMeta : UnionKeyMeta} {key : Key} {r : Row} {old : Bool}
  {id k : Nat} {nodes : List (Key × List Nat)} {index index' : AppendingIndex}
  {c : UniqueKeyTypePair} {columns : List UniqueKeyTypePair}

/-- A key column whose value is read through the pointer to it: a fixed one, but a `BLOB` that is the
only column is taken as bytes. -/
def ReadThrough (ukMeta : UnionKeyMeta) (c : UniqueKeyTypePair) : Prop :=
  c ∈ ukMeta.columnInfo ∧ c.type.fixed = true ∧ (ukMeta.columnInfo = [c] → c.type ≠ .T_BLOB)

/-- No key column of an image that is read through its pointer is null. -/
def NoNull (ukMeta : UnionKeyMeta) (r : Row) (old : Bool) : Prop :=
  ∀ c, ReadThrough ukMeta c → r.image old c.columnId ≠ none

/-- The fixed columns of a record have all their bytes. -/
def FixedColumns (ukMeta : UnionKeyMeta) (r : Row) : Prop :=
  ∀ c ∈ ukMeta.columnInfo, c.type.fixed = true → ∀ old d, r.image old c.columnId = some d →
    c.type.columnTypeSize ≤ d.length

/-- A computation that does not read through the null pointer. -/
def NoDeref {α : Type} (x : Exec α) : Prop := Post x (fun _ => True) (· ≠ .nullDeref)

theorem noDeref_iff {α : Type} {x : Exec α} : NoDeref x ↔ x ≠ .error .nullDeref := by
  cases x with
  | ok a => simp [NoDeref, Post]
  | error e => simp [NoDeref, Post]

theorem NoDeref.bind {α β : Type} {x : Exec α} {f : α → Exec β} (h : NoDeref x)
    (hf : ∀ a, x = .ok a → NoDeref (f a)) : NoDeref (x >>= f) := by
  cases x with
  | ok a => exact hf a rfl
  | error e => exact h

theorem noDeref_error {α : Type} {e : Fault} (h : e ≠ .nullDeref) : NoDeref (.error e : Exec α) := h

/-! ## The search -/

theorem noDeref_compareColumn (a b : List UInt8) : NoDeref (UnionKey.compareColumn F t a b) := by
  have hbinary : ∀ d, NoDeref (UnionKey.binaryAt d) := by
    intro d
    unfold UnionKey.binaryAt
    simp only
    split
    · trivial
    · exact noDeref_error (by decide)
  have hstring : NoDeref (do return binaryCompare (← UnionKey.binaryAt a) (← UnionKey.binaryAt b)) :=
    (hbinary a).bind fun _ _ => (hbinary b).bind fun _ _ => trivial
  cases t <;> first
    | trivial
    | exact hstring
    | exact noDeref_error (by decide)

private theorem noDeref_compareColumns (columns : List UniqueKeyTypePair) (a b : List UInt8) :
    NoDeref (UnionKey.compareColumns F columns a b) := by
  induction columns generalizing a b with
  | nil => trivial
  | cons c columns ih =>
    refine (noDeref_compareColumn a b).bind fun n _ => ?_
    split
    · trivial
    · exact ih _ _

theorem noDeref_compareKey (a b : Key) : NoDeref (compareKey F t ukMeta a b) := by
  cases t <;> first
    | trivial
    | exact noDeref_compareColumns _ _ _

private theorem noDeref_findGreaterOrEqual (key : Key) (nodes : List (Key × List Nat)) :
    NoDeref (findGreaterOrEqual (compareKey F t ukMeta) key nodes) := by
  induction nodes with
  | nil => trivial
  | cons node nodes ih =>
    refine (noDeref_compareKey node.1 key).bind fun n _ => ?_
    split
    · exact ih.bind fun _ _ => trivial
    · trivial

theorem noDeref_appendNode (key : Key) (id : Nat) (nodes : List (Key × List Nat)) :
    NoDeref (appendNode F t ukMeta key id nodes) := by
  have hgreater : ∀ a b, NoDeref (greaterKey F t ukMeta a b) := by
    intro a b
    have hcompare : NoDeref (compareKey F t ukMeta a b) := noDeref_compareKey a b
    cases t <;> first
      | trivial
      | exact hcompare.bind fun _ _ => trivial
  refine (noDeref_findGreaterOrEqual key nodes).bind fun sides _ => ?_
  dsimp only
  split
  · trivial
  · next node rest _ =>
    refine (hgreater node.1 key).bind fun greater _ => ?_
    split
    · refine (noDeref_compareKey key node.1).bind fun n _ => ?_
      split
      · exact noDeref_error (by decide)
      · trivial
    · split
      · trivial
      · exact noDeref_error (by decide)

/-! ## The key of an image -/

theorem noDeref_readFixed (old : Bool)
    (hrow : ∀ d, r.image old c.columnId = some d → c.type.columnTypeSize ≤ d.length) :
    (r.image old c.columnId = none → r.readFixed old c = .error .nullDeref) ∧
      (r.image old c.columnId ≠ none → ∃ d, r.readFixed old c = .ok d) := by
  unfold Row.readFixed
  cases himage : r.image old c.columnId with
  | none => exact ⟨fun _ => rfl, fun h => absurd rfl h⟩
  | some d =>
    refine ⟨fun h => (nomatch h), fun _ => ⟨d.take c.type.columnTypeSize, ?_⟩⟩
    simp [deref, hrow d himage]

theorem noDeref_initColumns (old : Bool) (hrow : ∀ c ∈ columns, c.type.fixed = true → ∀ d,
    r.image old c.columnId = some d → c.type.columnTypeSize ≤ d.length) :
    ((∃ c ∈ columns, c.type.fixed = true ∧ r.image old c.columnId = none) →
      columns.mapM (UnionKey.initColumn r old) = .error .nullDeref) ∧
    ((∀ c ∈ columns, c.type.fixed = true → r.image old c.columnId ≠ none) →
      ∃ ds, columns.mapM (UnionKey.initColumn r old) = .ok ds) := by
  induction columns with
  | nil => exact ⟨by simp, fun _ => ⟨[], rfl⟩⟩
  | cons c columns ih =>
    obtain ⟨hnull, hsome⟩ := ih fun c hc => hrow c (List.mem_cons_of_mem _ hc)
    rw [List.mapM_cons]
    simp only [List.mem_cons, exists_eq_or_imp, forall_eq_or_imp]
    by_cases hfixed : c.type.fixed = true
    · obtain ⟨hcnull, hcsome⟩ := noDeref_readFixed old (hrow c List.mem_cons_self hfixed)
      have hinit : UnionKey.initColumn r old c = r.readFixed old c := by
        rw [UnionKey.initColumn, if_pos hfixed]
      rw [hinit]
      by_cases himage : r.image old c.columnId = none
      · rw [hcnull himage]
        exact ⟨fun _ => rfl, fun h => absurd himage (h.1 hfixed)⟩
      · obtain ⟨d, hd⟩ := hcsome himage
        rw [hd]
        refine ⟨fun h => ?_, fun h => ?_⟩
        · rw [Exec.ok_bind, hnull (h.resolve_left fun h => himage h.2)]
          rfl
        · obtain ⟨ds, hds⟩ := hsome h.2
          exact ⟨d :: ds, by rw [Exec.ok_bind, hds]; rfl⟩
    · obtain ⟨d, hd⟩ : ∃ d, UnionKey.initColumn r old c = .ok d := by
        rw [UnionKey.initColumn, if_neg hfixed]
        exact ⟨_, rfl⟩
      rw [hd]
      refine ⟨fun h => ?_, fun h => ?_⟩
      · rw [Exec.ok_bind, hnull (h.resolve_left fun h => hfixed h.1)]
        rfl
      · obtain ⟨ds, hds⟩ := hsome h.2
        exact ⟨d :: ds, by rw [Exec.ok_bind, hds]; rfl⟩

theorem noDeref_ofRow (hrow : FixedColumns ukMeta r) : NoDeref (UnionKey.ofRow ukMeta r old) ↔
    ∀ c ∈ ukMeta.columnInfo, c.type.fixed = true → r.image old c.columnId ≠ none := by
  obtain ⟨hnull, hsome⟩ := noDeref_initColumns old fun c hc hfixed => hrow c hc hfixed old
  constructor
  · intro h c hc hfixed himage
    unfold UnionKey.ofRow UnionKey.initKey at h
    rw [hnull ⟨c, hc, hfixed, himage⟩] at h
    exact h rfl
  · intro h
    obtain ⟨ds, hds⟩ := hsome h
    unfold UnionKey.ofRow UnionKey.initKey
    rw [hds, Exec.ok_bind]
    -- what is left is whether the columns fit
    have hfits : ∀ (key : Key) (n : Nat),
        NoDeref (if key.length ≤ n then return key else throw .outOfBounds : Exec Key) := by
      intro key n
      split
      · trivial
      · exact noDeref_error (by decide)
    exact hfits _ _

/-- The key of an image is read without harm exactly if no column read through its pointer is
null. -/
theorem noDeref_keyOf (hmeta : KeyColumns ukMeta) (h : Counted ukMeta k index)
    (hrow : FixedColumns ukMeta r) : NoDeref (index.keyOf r old) ↔ NoNull ukMeta r old := by
  have htype := h.type
  unfold keyOf NoNull ReadThrough
  rw [h.keyMeta, htype]
  match hcolumns : ukMeta.columnInfo with
  | [] => exact absurd hcolumns hmeta.nonempty
  | [c] =>
    have hunion := hmeta.types c (by simp [hcolumns])
    have hc : typeOf ukMeta = c.type := by simp [typeOf, hcolumns]
    have hread := noDeref_readFixed (c := c) (r := r) old
    have hfixed := hrow c (by simp [hcolumns])
    simp only [List.mem_singleton, hc]
    cases ht : c.type with
    | T_UNION => exact absurd ht hunion
    | T_BLOB | T_STRING | T_BINARY | T_TEXT =>
      refine iff_of_true trivial ?_
      rintro c' ⟨rfl, hfix, hblob⟩
      simp [ht, ColumnType.fixed] at hfix hblob
    | _ =>
      have hfix : c.type.fixed = true := by rw [ht]; rfl
      obtain ⟨hnull, hsome⟩ := hread (hfixed hfix old)
      show NoDeref (r.readFixed old c) ↔ _
      constructor
      · rintro hread c' ⟨rfl, -, -⟩ himage
        rw [hnull himage] at hread
        exact hread rfl
      · intro h
        obtain ⟨d, hd⟩ := hsome (h c ⟨rfl, hfix, fun _ => by simp [ht]⟩)
        rw [hd]
        trivial
  | c :: c' :: cs =>
    have hc : typeOf ukMeta = .T_UNION := by simp [typeOf, hcolumns]
    have hmany : ∀ x, ukMeta.columnInfo ≠ [x] := by simp [hcolumns]
    rw [hc, ← hcolumns]
    simp [noDeref_ofRow hrow, hmany]

/-! ## The append -/

/-- The index after some history of appends. -/
def Reachable (F : FloatOps) (ukMeta : UnionKeyMeta) (index : AppendingIndex) : Prop :=
  ∃ rows, (create ukMeta >>= fun index => appendAll F index rows) = .ok index

theorem Reachable.counted (hmeta : KeyColumns ukMeta) (h : Reachable F ukMeta index) :
    Counted ukMeta 0 index := by
  obtain ⟨rows, h⟩ := h
  obtain ⟨index₀, hnew, happ⟩ := Exec.of_bind h
  exact appendAll_counted hmeta (create_counted hnew) happ

/-- A record is put into an index without reading through the null pointer, whatever is in it. -/
def NullSafe (F : FloatOps) (ukMeta : UnionKeyMeta) (r : Row) : Prop :=
  ∀ index, Reachable F ukMeta index → ∀ id, index.append F r id ≠ .error .nullDeref

/-- The key of the new image can be put together, so that `append` comes to the old one. -/
def NewKeyBuilt (ukMeta : UnionKeyMeta) (r : Row) : Prop :=
  ∃ key, (ofEntries ukMeta []).keyOf r false = .ok key

theorem keyOf_ofEntries (h : Counted ukMeta k index) (r : Row) (old : Bool) :
    index.keyOf r old = (ofEntries ukMeta []).keyOf r old := by
  unfold keyOf
  rw [h.type, h.keyMeta]
  rfl

theorem noDeref_appendKey (id : Nat) (hmeta : KeyColumns ukMeta) (h : Counted ukMeta k index)
    (hrow : FixedColumns ukMeta r) (hnull : NoNull ukMeta r old) :
    NoDeref (index.appendKey F r old id) := by
  refine ((noDeref_keyOf hmeta h hrow).mpr hnull).bind fun key _ => ?_
  refine (noDeref_appendNode key id index.m_index).bind fun nodes _ => ?_
  dsimp only
  split
  · trivial
  · trivial

private theorem appendKey_new (hkey : (ofEntries ukMeta []).keyOf r old = .ok key) (id : Nat) :
    ∃ index', (ofEntries ukMeta []).appendKey F r old id = .ok index' := by
  unfold appendKey
  rw [hkey, Exec.ok_bind]
  exact ⟨_, rfl⟩

theorem noNull_of_no_index {e : Fault} (hmeta : KeyColumns ukMeta) (h : create ukMeta = .error e)
    (r : Row) (old : Bool) : NoNull ukMeta r old := by
  rintro c ⟨hc, hfixed, -⟩
  unfold create typeOf at h
  match hcolumns : ukMeta.columnInfo with
  | [] => exact absurd hcolumns hmeta.nonempty
  | [c'] =>
    rw [hcolumns] at h hc
    rw [List.mem_singleton.mp hc] at hfixed
    cases ht : c'.type <;> simp [ht, ColumnType.fixed] at h hfixed
  | c' :: c'' :: cs =>
    rw [hcolumns] at h
    cases h

/-- A record is indexed without reading through the null pointer exactly if none of the key columns
that are read through their pointer is null in the new image, and none in the old image if the record
updates the key and `append` comes that far. -/
theorem nullSafe_iff (hmeta : KeyColumns ukMeta) (hrow : FixedColumns ukMeta r) :
    NullSafe F ukMeta r ↔ NoNull ukMeta r false ∧
      (r.keyUpdate ukMeta = true → NewKeyBuilt ukMeta r → NoNull ukMeta r true) := by
  constructor
  · intro h
    obtain ⟨e, hnew⟩ | ⟨index₀, hnew⟩ : (∃ e, create ukMeta = .error e) ∨
        ∃ index, create ukMeta = .ok index := by
      cases create ukMeta with
      | error e => exact .inl ⟨e, rfl⟩
      | ok index => exact .inr ⟨index, rfl⟩
    · exact ⟨noNull_of_no_index hmeta hnew r false, fun _ _ => noNull_of_no_index hmeta hnew r true⟩
    have hcounted := create_counted hnew
    have happend := h index₀ ⟨[], by rw [hnew]; rfl⟩ 0
    have hkeyMeta := hcounted.keyMeta
    constructor
    · rw [← noDeref_keyOf hmeta hcounted hrow, noDeref_iff]
      intro hkey
      apply happend
      -- both branches start with the new image
      unfold AppendingIndex.append AppendingIndex.appendKey
      rw [hkey]
      split <;> rfl
    · rintro hupdate ⟨key, hkey⟩
      rw [← keyOf_ofEntries hcounted] at hkey
      cases happ : index₀.appendKey F r false 0 with
      | error e =>
        -- nothing stops a new index
        exfalso
        have hindex : index₀ = ofEntries ukMeta [] := by
          have hholds := (create_holds hnew).1
          have hall := (create_holds hnew).2
          have heq := hholds.eq_ofEntries (by simpa using hall)
          have hnil : index₀.m_index = [] := by
            unfold create at hnew
            split at hnew <;> cases hnew
            rfl
          rw [heq, hnil]
        rw [hindex] at happ hkey
        obtain ⟨index', hindex'⟩ := appendKey_new (F := F) hkey 0
        rw [hindex'] at happ
        cases happ
      | ok index₁ =>
        obtain ⟨hcounted₁, -⟩ := hcounted.appendKey hmeta happ
        rw [← noDeref_keyOf hmeta hcounted₁ hrow, noDeref_iff]
        intro hkey'
        apply happend
        unfold AppendingIndex.append
        rw [hkeyMeta, if_pos hupdate, happ, Exec.ok_bind]
        unfold AppendingIndex.appendKey
        rw [hkey']
        rfl
  · rintro ⟨hnew, hold⟩ index hreach id
    have hcounted := hreach.counted hmeta
    rw [← noDeref_iff]
    unfold AppendingIndex.append
    rw [hcounted.keyMeta]
    have hfirst := noDeref_appendKey (F := F) id hmeta hcounted hrow hnew
    split
    · next hupdate =>
      refine hfirst.bind fun index₁ happ => ?_
      obtain ⟨key, hkey, -⟩ := Exec.of_bind happ
      rw [keyOf_ofEntries hcounted] at hkey
      have hsecond := noDeref_appendKey (F := F) id hmeta
        (hcounted.appendKey hmeta happ).1 hrow (hold hupdate ⟨key, hkey⟩)
      exact hsecond.bind fun _ _ => trivial
    · exact hfirst.bind fun _ _ => trivial

theorem nullSafe_rowOf : NullSafe noFloats (UnionKeyMeta.createUnionKey [⟨.T_UINT32, 0⟩])
      (rowOf fun _ => [5, 0, 0, 0]) ↔
    NoNull (UnionKeyMeta.createUnionKey [⟨.T_UINT32, 0⟩]) (rowOf fun _ => [5, 0, 0, 0]) false ∧
      ((rowOf fun _ => [5, 0, 0, 0]).keyUpdate (UnionKeyMeta.createUnionKey [⟨.T_UINT32, 0⟩]) = true →
        NewKeyBuilt (UnionKeyMeta.createUnionKey [⟨.T_UINT32, 0⟩]) (rowOf fun _ => [5, 0, 0, 0]) →
        NoNull (UnionKeyMeta.createUnionKey [⟨.T_UINT32, 0⟩]) (rowOf fun _ => [5, 0, 0, 0]) true) := by
  apply nullSafe_iff ⟨by decide, by decide, by decide⟩
  intro c hc _ old d hd
  rw [List.mem_singleton.mp hc]
  cases old with
  | false =>
    cases hd
    exact Nat.le_refl 4
  | true => cases hd

def nullRow : Row where
  isUpdate := false
  updatedBitmap := fun _ => false
  column := fun _ => none
  oldColumnOfUpdateType := fun _ => none

/-- A unique key on a nullable `UINT32` column. -/
theorem not_nullSafe_nullRow :
    ¬ NullSafe noFloats (UnionKeyMeta.createUnionKey [⟨.T_UINT32, 0⟩]) nullRow := by
  intro h
  exact h (ofEntries (UnionKeyMeta.createUnionKey [⟨.T_UINT32, 0⟩]) []) ⟨[], by decide⟩ 0 (by decide)

end AppendingIndex

end DBStream.Native
