import DBStream.Spec.UnionKeyOrder

/-!
# The room of union keys

`memSize` computes the size of a key, the callers of `initKey` add the two bytes of the length in
front or do not, `initKey` writes, and the readers take the size as it suits them.  All of them agree
for keys of fixed columns only, and for these if the metadata have the size of the columns.
-/

namespace DBStream.Native

namespace UnionKey

variable {ukMeta : UnionKeyMeta} {columns : List UniqueKeyTypePair} {c : UniqueKeyTypePair} {r : Row}
  {old : Bool} {key : Key} {ds : List (List UInt8)} {x : List UInt8}

/-! ## What is to be written -/

/-- The bytes of a column: the value of a fixed one, and a variable one with its length in front. -/
def encodeColumn (r : Row) (old : Bool) (c : UniqueKeyTypePair) : List UInt8 :=
  let d := r.readVar old c
  if c.type.fixed then d.take c.type.columnTypeSize else LE.bytes 2 d.length ++ d

/-- The columns of a key, in key order. -/
def encode (ukMeta : UnionKeyMeta) (r : Row) (old : Bool) : List UInt8 :=
  ukMeta.columnInfo.flatMap (encodeColumn r old)

/-- The key of an image fits what `appendUnionIndex`, and `createKey` for a new image, allocate; it
is the columns, with their size in front of a variable key; and its readers look at all of it. -/
def FitsAndDecodes (ukMeta : UnionKeyMeta) (r : Row) (old : Bool) : Prop :=
  ∃ key, ofRow ukMeta r old = .ok key ∧ (old = false → createKey ukMeta r = .ok key) ∧
    key = (if ukMeta.fixed then [] else LE.bytes 2 (memSize ukMeta r old)) ++ encode ukMeta r old ∧
    equalBytes ukMeta key = .ok key ∧ hashBytes ukMeta key = .ok key ∧
    (ukMeta.fixed = false → solidBytes key = .ok key)

/-- A column that can be written as it is: a fixed one that is not null, and a variable one whose
length is a `uint16_t`. -/
def Writable (r : Row) (old : Bool) (c : UniqueKeyTypePair) : Prop :=
  if c.type.fixed then ∃ d, r.image old c.columnId = some d ∧ c.type.columnTypeSize ≤ d.length
  else (r.readVar old c).length < 2 ^ 16

/-! ## What is written -/

theorem readFixed_eq_ok : r.readFixed old c = .ok x ↔ ∃ d, r.image old c.columnId = some d ∧
    c.type.columnTypeSize ≤ d.length ∧ x = d.take c.type.columnTypeSize := by
  unfold Row.readFixed
  cases himage : r.image old c.columnId with
  | none =>
    simp only [reduceCtorEq, false_and, exists_false, iff_false]
    exact fun h => nomatch h
  | some d =>
    simp only [deref, Exec.ok_bind, Option.some.injEq, exists_eq_left']
    split
    · next hle => simp [hle, eq_comm]
    · next hle => simp [hle]

private theorem initColumn_length (h : initColumn r old c = .ok x) :
    x.length ≤ (encodeColumn r old c).length ∧
      (x.length = (encodeColumn r old c).length → Writable r old c) := by
  unfold initColumn at h
  unfold encodeColumn Writable
  split at h
  · next hfixed =>
    obtain ⟨d, hd, hle, rfl⟩ := readFixed_eq_ok.mp h
    simp only [hfixed, if_true, Row.readVar, hd, Option.getD_some]
    exact ⟨le_refl _, fun _ => ⟨d, rfl, hle⟩⟩
  · next hvar =>
    cases h
    simp only [if_neg hvar, List.length_append, LE.length_bytes, List.length_take]
    omega

private theorem initColumn_writable (h : Writable r old c) :
    initColumn r old c = .ok (encodeColumn r old c) := by
  unfold initColumn encodeColumn
  unfold Writable at h
  split
  · next hfixed =>
    rw [if_pos hfixed] at h
    obtain ⟨d, hd, hle⟩ := h
    exact readFixed_eq_ok.mpr ⟨d, hd, hle, by simp [Row.readVar, hd]⟩
  · next hvar =>
    rw [if_neg hvar] at h
    simp only [Nat.mod_eq_of_lt h, List.take_length]

theorem initColumns_length (h : columns.mapM (initColumn r old) = .ok ds) :
    ds.flatten.length ≤ (columns.flatMap (encodeColumn r old)).length ∧
      (ds.flatten.length = (columns.flatMap (encodeColumn r old)).length →
        ∀ c ∈ columns, Writable r old c) := by
  induction columns generalizing ds with
  | nil =>
    cases h
    simp
  | cons c columns ih =>
    rw [List.mapM_cons] at h
    obtain ⟨d, hd, h⟩ := Exec.of_bind h
    obtain ⟨ds', hds, hret⟩ := Exec.of_bind h
    cases hret
    obtain ⟨hle, hwritable⟩ := initColumn_length hd
    obtain ⟨hrest, hall⟩ := ih hds
    simp only [List.flatten_cons, List.flatMap_cons, List.length_append, List.mem_cons,
      forall_eq_or_imp]
    exact ⟨by omega, fun heq => ⟨hwritable (by omega), hall (by omega)⟩⟩

private theorem initColumns_writable (h : ∀ c ∈ columns, Writable r old c) :
    columns.mapM (initColumn r old) = .ok (columns.map (encodeColumn r old)) := by
  induction columns with
  | nil => rfl
  | cons c columns ih =>
    rw [List.mapM_cons, initColumn_writable (h c List.mem_cons_self),
      ih fun c hc => h c (List.mem_cons_of_mem _ hc)]
    rfl

/-! ## The readers -/

theorem bytesAt_eq_self {n : Nat} (h : SolidIndex.bytesAt key n = .ok key) : key.length = n := by
  unfold SolidIndex.bytesAt at h
  split at h
  · next hle =>
    have hlen := congrArg List.length (Except.ok.inj h)
    rw [List.length_take] at hlen
    omega
  · cases h

/-- Of a variable key `hash` leaves out the last two bytes, so it cannot look at all of a key if
`operator==` does. -/
theorem fixed_of_readers (hequal : equalBytes ukMeta key = .ok key)
    (hhash : hashBytes ukMeta key = .ok key) : ukMeta.fixed = true := by
  cases hfixed : ukMeta.fixed with
  | true => rfl
  | false =>
    simp only [equalBytes, hashBytes, hfixed, Bool.false_eq_true, if_false] at hequal hhash
    obtain ⟨size, hsize, hequal⟩ := Exec.of_bind hequal
    rw [hsize, Exec.ok_bind] at hhash
    have h₁ := bytesAt_eq_self hequal
    have h₂ := bytesAt_eq_self hhash
    omega

/-- A key of an image fits and decodes exactly if it has no length in front, its columns can be
written as they are and the metadata have their size. -/
theorem fitsAndDecodes_iff : FitsAndDecodes ukMeta r old ↔
    ukMeta.fixed = true ∧ (∀ c ∈ ukMeta.columnInfo, Writable r old c) ∧
      ukMeta.size = (encode ukMeta r old).length := by
  constructor
  · rintro ⟨key, hrow, -, hkey, hequal, hhash, -⟩
    have hfixed := fixed_of_readers hequal hhash
    simp only [equalBytes, hfixed, if_true, List.nil_append] at hequal hkey
    have hsize := bytesAt_eq_self hequal
    obtain ⟨ds, hds, hret⟩ := Exec.of_bind hrow
    simp only [hfixed, if_true, List.nil_append, true_or] at hret
    split at hret
    · -- the columns are as long as they are to be
      cases hret
      exact ⟨hfixed, (initColumns_length hds).2 (congrArg List.length hkey), by rw [← hkey, hsize]⟩
    · cases hret
  · rintro ⟨hfixed, hwritable, hsize⟩
    have hcolumns := initColumns_writable hwritable
    have hencode : (ukMeta.columnInfo.map (encodeColumn r old)).flatten = encode ukMeta r old := by
      rw [encode, List.flatMap_def]
    have hinit : initKey ukMeta r old ukMeta.size ukMeta.size = .ok (encode ukMeta r old) := by
      rw [initKey, hcolumns, Exec.ok_bind]
      simp only [hfixed, if_true, List.nil_append, hencode, hsize, le_refl]
      rfl
    refine ⟨encode ukMeta r old, ?_, ?_, by simp [hfixed], ?_, ?_, by simp [hfixed]⟩
    · simpa [ofRow, memSize, hfixed] using hinit
    · intro hold
      rw [hold] at hinit ⊢
      simpa [createKey, memSize, hfixed] using hinit
    · simp [equalBytes, hfixed, bytesAt_of_length hsize.symm]
    · simp [hashBytes, hfixed, bytesAt_of_length hsize.symm]

/-- The images of a record of which a key is made: the new one, and the old one of an update. -/
def HasImage (r : Row) (old : Bool) : Prop := old = true → r.isUpdate = true

/-- The keys of a record fit and decode exactly if they are keys without a length in front, of columns
that can be written as they are, and the metadata have their size. -/
theorem keys_fit_iff (ukMeta : UnionKeyMeta) (r : Row) :
    (∀ old, HasImage r old → FitsAndDecodes ukMeta r old) ↔
      ∀ old, HasImage r old → ukMeta.fixed = true ∧
        (∀ c ∈ ukMeta.columnInfo, Writable r old c) ∧
        ukMeta.size = (encode ukMeta r old).length := by
  simp only [fitsAndDecodes_iff]

def numberAndStringUpdate : Row where
  isUpdate := true
  updatedBitmap := fun _ => true
  column := fun i => if i = 0 then some [2, 0, 0, 0] else some [98]
  oldColumnOfUpdateType := fun i => if i = 0 then some [1, 0, 0, 0] else some [97]

/-- The key of the old image is written behind the end of its buffer, and of that of the new image
`hash` looks at 7 of 9 bytes. -/
theorem keys_do_not_fit :
    ofRow numberAndString numberAndStringUpdate true = .error .outOfBounds ∧
      (do hashBytes numberAndString (← ofRow numberAndString numberAndStringUpdate false)) =
        .ok [7, 0, 2, 0, 0, 0, 1] ∧
      ¬ ∀ old, HasImage numberAndStringUpdate old →
        FitsAndDecodes numberAndString numberAndStringUpdate old := by
  refine ⟨by decide, by decide, fun h => ?_⟩
  obtain ⟨key, hrow, -⟩ := h true fun _ => rfl
  cases hrow

end UnionKey

end DBStream.Native
