import DBStream.Native.KVRow

/-!
# What a step does with a row

`Wrote` has the ways in which an operation ends, as long as the tail of the row has not been freed.
A new version is put behind the tail (`Row.appended`); only `insert` leaves the tail where it was.
An update that comes to the tail may write behind the memory of its version, and a drop that does
always will: `Op.Safe` is when an operation does not fault.
-/

namespace DBStream.Native.KVDB

/-- The operations of a client.  `new` is the address of the version that the pool gives. -/
inductive Op where
  | insert (new : Nat) (data : RowData)
  | update (new : Nat) (change : List ColumnChange)
  | drop (new : Nat)

def Op.new : Op → Nat
  | .insert new _ => new
  | .update new _ => new
  | .drop new => new

def Op.apply (uid tid : Nat) (r : Row) : Op → Exec (Status × Row)
  | .insert new data => r.insert uid new data
  | .update new change => r.update uid new tid change
  | .drop new => r.drop uid new tid

variable {r : Row} {uid new tid : Nat}

/-- The chain of the versions from a pointer on. -/
abbrev Chain (mem : Memory) (p : Option Nat) (l : List Nat) : Prop := Cells.Chain Version.next mem p l

theorem read_eq_ok {mem : Memory} {p : Option Nat} {a : Nat} {v : Version} :
    read mem p = .ok (a, v) ↔ p = some a ∧ mem.get a = some v := by
  unfold read
  cases p with
  | none => simp
  | some b =>
    dsimp only
    cases hget : mem.get b with
    | none =>
      simp only [reduceCtorEq, Option.some.injEq, false_iff, not_and]
      rintro rfl
      simp [hget]
    | some w =>
      simp only [Except.ok.injEq, Prod.mk.injEq, Option.some.injEq]
      constructor
      · rintro ⟨rfl, rfl⟩
        exact ⟨rfl, hget⟩
      · rintro ⟨rfl, hv⟩
        exact ⟨rfl, Option.some.inj (hget.symm.trans hv)⟩

/-! ## The changes of an update -/

namespace RowData

/-- The first number that is none of a column of the table is one that `getColumn` refuses. -/
def Unknown (d : RowData) (change : List ColumnChange) : Prop :=
  ∃ c, (change.find? fun c => d.meta'.columnsCount ≤ c.columnId) = some c ∧
    d.meta'.columnsCount < c.columnId

/-- All changes are of columns of the table. -/
def Known (d : RowData) (change : List ColumnChange) : Prop :=
  ∀ c ∈ change, c.columnId < d.meta'.columnsCount

instance (d : RowData) (change : List ColumnChange) : Decidable (d.Known change) :=
  inferInstanceAs (Decidable (∀ c ∈ change, c.columnId < d.meta'.columnsCount))

/-- By how much a change makes its column longer. -/
def growth (d : RowData) (c : ColumnChange) : Int :=
  match d.meta'.m_columns[c.columnId]? with
  | none => 0
  | some col => if col.m_columnType.info.fixed then 0 else c.size - d.varColumnSize c.columnId

variable {d : RowData} {change : List ColumnChange} {c : ColumnChange} {delta : Int}

private theorem unknown_cons (h : c.columnId < d.meta'.columnsCount) :
    d.Unknown (c :: change) ↔ d.Unknown change := by
  unfold Unknown
  rw [List.find?_cons_of_neg (by simpa using h)]

private theorem known_cons (h : c.columnId < d.meta'.columnsCount) :
    d.Known (c :: change) ↔ d.Known change := by
  simp [Known, h]

theorem not_unknown_of_known (h : d.Known change) : ¬d.Unknown change := by
  rintro ⟨c, hc, hlt⟩
  have hmem := h c (List.mem_of_find?_eq_some hc)
  omega

private theorem deltaSize_cons (h : c.columnId < d.meta'.columnsCount) :
    d.deltaSize (c :: change) delta = d.deltaSize change (delta + d.growth c) := by
  obtain ⟨col, hcol⟩ : ∃ col, d.meta'.m_columns[c.columnId]? = some col :=
    ⟨_, List.getElem?_eq_getElem h⟩
  have hget : d.getColumn c.columnId = .ok (some col) := by
    rw [getColumn, if_neg (by omega), tableAt, hcol]
    rfl
  rw [deltaSize, hget, Exec.ok_bind, growth, hcol]
  dsimp only
  split_ifs <;> simp

/-- The loop over the changes ends with their growth, with an error, or reads behind the columns. -/
theorem deltaSize_cases (d : RowData) (change : List ColumnChange) (delta : Int) :
    (d.Known change ∧ d.deltaSize change delta = .ok (none, delta + (change.map d.growth).sum)) ∨
      (d.Unknown change ∧ ∃ e delta', d.deltaSize change delta = .ok (some e, delta')) ∨
      (¬d.Known change ∧ ¬d.Unknown change ∧ d.deltaSize change delta = .error .outOfBounds) := by
  induction change generalizing delta with
  | nil => exact .inl ⟨List.forall_mem_nil _, by simp [deltaSize]⟩
  | cons c change ih =>
    rcases Nat.lt_trichotomy c.columnId d.meta'.columnsCount with h | h | h
    · rw [known_cons h, unknown_cons h, deltaSize_cons h, List.map_cons, List.sum_cons, ← add_assoc]
      exact ih (delta + d.growth c)
    · have hfind : ((c :: change).find? fun c => d.meta'.columnsCount ≤ c.columnId) = some c :=
        List.find?_cons_of_pos (by simp [h])
      refine .inr (.inr ⟨fun hknown => absurd (hknown c (by simp)) (by omega), ?_, ?_⟩)
      · rintro ⟨c', hc', hlt⟩
        cases hfind.symm.trans hc'
        omega
      · have hnone : d.meta'.m_columns[c.columnId]? = none := by
          rw [h]
          exact List.getElem?_eq_none le_rfl
        rw [deltaSize, getColumn, if_neg (by omega), tableAt, hnone]
        rfl
    · have hfind : ((c :: change).find? fun c => d.meta'.columnsCount ≤ c.columnId) = some c :=
        List.find?_cons_of_pos (by simp [h.le])
      refine .inr (.inl ⟨⟨c, hfind, h⟩, ?_⟩)
      rw [deltaSize, getColumn, if_pos h]
      exact ⟨_, _, rfl⟩

end RowData

namespace Version

/-- The update of a version ends with an error. -/
def Unknown (v : Version) (change : List ColumnChange) : Prop :=
  ∃ d, v.data = some d ∧ d.Unknown change

/-- The size of a version is known, the changes are of its columns, and the memory that is asked for
    has room for the new version. -/
def Roomy (v : Version) (change : List ColumnChange) : Prop :=
  ∃ d size, v.data = some d ∧ v.size = some size ∧ d.Known change ∧
    sizeof + (d.update change).recordSize ≤
      bufferPool.room (updateSize size (change.map d.growth).sum)

variable {v : Version} {change : List ColumnChange} {mem : Memory} {this : Nat}

theorem Roomy.not_unknown (h : v.Roomy change) : ¬v.Unknown change := by
  obtain ⟨d, size, hd, -, hknown, -⟩ := h
  rintro ⟨d', hd', hunknown⟩
  cases hd.symm.trans hd'
  exact RowData.not_unknown_of_known hknown hunknown

/-- An update makes the new version, ends with an error, or faults. -/
theorem update_cases (mem : Memory) (this : Nat) (v : Version) (new tid : Nat)
    (change : List ColumnChange) :
    (∃ d, v.data = some d ∧ v.Roomy change ∧ v.update mem this new tid change =
      .ok (none, (mem.put new (updated d this tid change)).put this { v with next := some new })) ∨
    (v.Unknown change ∧ ∃ e, v.update mem this new tid change = .ok (some e, mem)) ∨
    (¬v.Roomy change ∧ ¬v.Unknown change ∧ ∃ f, v.update mem this new tid change = .error f) := by
  unfold update
  cases hd : v.data with
  | none =>
    refine .inr (.inr ⟨?_, ?_, _, rfl⟩)
    · rintro ⟨d, _, hd', -⟩
      cases hd.symm.trans hd'
    · rintro ⟨d, hd', -⟩
      cases hd.symm.trans hd'
  | some d =>
    have hroomy : v.Roomy change ↔ ∃ size, v.size = some size ∧ d.Known change ∧
        sizeof + (d.update change).recordSize ≤
          bufferPool.room (updateSize size (change.map d.growth).sum) := by
      simp [Roomy, hd]
    have hunknown : v.Unknown change ↔ d.Unknown change := by simp [Unknown, hd]
    rw [written, Exec.ok_bind, hroomy, hunknown]
    obtain ⟨hknown, hdelta⟩ | ⟨hunknown, e, delta, hdelta⟩ | ⟨hknown, hunknown, hdelta⟩ :=
      d.deltaSize_cases change 0
    · rw [hdelta, Exec.ok_bind, zero_add]
      dsimp only
      have hnot := RowData.not_unknown_of_known hknown
      cases hsize : v.size with
      | none => exact .inr (.inr ⟨by simp, hnot, _, rfl⟩)
      | some size =>
        rw [written, Exec.ok_bind]
        by_cases hroom : bufferPool.room (updateSize size (change.map d.growth).sum) <
            sizeof + (d.update change).recordSize
        · rw [if_pos hroom]
          refine .inr (.inr ⟨?_, hnot, _, rfl⟩)
          rintro ⟨size', hsize', -, hle⟩
          cases hsize'
          omega
        · rw [if_neg hroom]
          exact .inl ⟨d, rfl, ⟨size, rfl, hknown, by omega⟩, rfl⟩
    · rw [hdelta]
      exact .inr (.inl ⟨hunknown, e, rfl⟩)
    · rw [hdelta]
      exact .inr (.inr ⟨by simp [hknown], hunknown, _, rfl⟩)

/-- A page of 128 bytes has no room for what a drop writes. -/
theorem drop_eq (mem : Memory) (this : Nat) (v : Version) (new tid : Nat) :
    v.drop mem this new tid = .error .outOfBounds := rfl

end Version

namespace Row

/-- The tail, if there is one, has not been freed. -/
def TailLive (r : Row) : Prop := ∀ t, r.tail = some t → (r.mem.get t).isSome

/-- The row can be locked by a client. -/
def Lockable (r : Row) (uid : Nat) : Prop := r.owner = 0 ∨ r.owner = uid

/-- The version at `t` is the tail, it is not the mark of a deleted row, and a client can lock the
    row: an update or a drop comes to the version. -/
structure Reaches (r : Row) (uid t : Nat) (v : Version) : Prop where
  tail : r.tail = some t
  get : r.mem.get t = some v
  notDeleted : v.isDelete = false
  lockable : r.Lockable uid

/-- A client has the row, and a new version is linked behind the one at `t`. -/
def appended (r : Row) (uid t : Nat) (v : Version) (new : Nat) (w : Version) : Row :=
  { r with
    owner := uid
    mem := (r.mem.put new w).put t { v with next := some new } }

theorem lock_of (h : r.Lockable uid) : r.lock uid = some { r with owner := uid } :=
  if_neg fun hne => h.elim hne.1 hne.2

theorem lock_none (h : ¬r.Lockable uid) : r.lock uid = none :=
  if_pos ⟨fun h0 => h (.inl h0), fun hu => h (.inr hu)⟩

theorem tailMissing_none (ht : r.tail = none) : r.tailMissing = .ok true := by
  unfold tailMissing
  rw [ht]

theorem tailMissing_some {t : Nat} {v : Version} (ht : r.tail = some t) (hv : r.mem.get t = some v) :
    r.tailMissing = .ok v.isDelete := by
  unfold tailMissing
  rw [ht]
  dsimp only
  rw [read_eq_ok.mpr ⟨rfl, hv⟩]
  rfl

theorem tailMissing_spec (h : r.TailLive) :
    r.tail = none ∧ r.tailMissing = .ok true ∨
      ∃ t v, r.tail = some t ∧ r.mem.get t = some v ∧ r.tailMissing = .ok v.isDelete := by
  cases ht : r.tail with
  | none => exact .inl ⟨rfl, tailMissing_none ht⟩
  | some t =>
    obtain ⟨v, hv⟩ := Option.isSome_iff_exists.mp (h t ht)
    exact .inr ⟨t, v, rfl, hv, tailMissing_some ht hv⟩

/-- An update or a drop comes to the tail, or is refused. -/
theorem reaches_or_refused (h : r.TailLive) (uid : Nat) :
    (∃ t v, r.Reaches uid t v) ∨ r.tailMissing = .ok true ∨
      r.tailMissing = .ok false ∧ ¬r.Lockable uid := by
  obtain ⟨-, hmissing⟩ | ⟨t, v, htail, hv, hmissing⟩ := tailMissing_spec h
  · exact .inr (.inl hmissing)
  · cases hdelete : v.isDelete with
    | true => exact .inr (.inl (hmissing.trans (hdelete ▸ rfl)))
    | false =>
      by_cases hlock : r.Lockable uid
      · exact .inl ⟨t, v, htail, hv, hdelete, hlock⟩
      · exact .inr (.inr ⟨hmissing.trans (hdelete ▸ rfl), hlock⟩)

theorem Reaches.unique {t t' : Nat} {v v' : Version} (h : r.Reaches uid t v)
    (h' : r.Reaches uid t' v') : (t, v) = (t', v') := by
  cases h.tail.symm.trans h'.tail
  cases h.get.symm.trans h'.get
  rfl

theorem Reaches.not_refused {t : Nat} {v : Version} (h : r.Reaches uid t v) :
    ¬(r.tailMissing = .ok true ∨ ¬r.Lockable uid) := by
  rintro (hmissing | hlock)
  · rw [tailMissing_some h.tail h.get, h.notDeleted] at hmissing
    cases hmissing
  · exact hlock h.lockable

end Row

/-! ## How an operation ends -/

namespace Op

/-- The row is not there to be changed, or is there when it is inserted. -/
def Refused (r : Row) : Op → Prop
  | .insert _ _ => r.tailMissing = .ok false
  | .update _ _ => r.tailMissing = .ok true
  | .drop _ => r.tailMissing = .ok true

/-- An operation that does not fault. -/
def Safe (r : Row) (uid : Nat) : Op → Prop
  | .insert _ _ => True
  | .update _ change => ∀ t v, r.Reaches uid t v → v.Unknown change ∨ v.Roomy change
  | .drop _ => ∀ t v, ¬r.Reaches uid t v

/-- An operation that fails behind the lock, and takes the lock away. -/
def Unlocks (r : Row) (uid : Nat) : Op → Prop
  | .update _ change => ∃ t v, r.Reaches uid t v ∧ v.Unknown change
  | _ => False

/-- The record that an operation makes is below 4 GiB, so that the offsets in it do not wrap. -/
def Small (r : Row) : Op → Prop
  | .insert _ data => data.recordSize < 2 ^ 32
  | .update _ change => ∀ t v d, r.tail = some t → r.mem.get t = some v → v.data = some d →
      (d.update change).recordSize < 2 ^ 32
  | .drop _ => True

end Op

/-- The ways in which an operation ends. -/
inductive Wrote (r : Row) (uid tid : Nat) : Op → Status → Row → Prop where
  | refused {op e} : op.Refused r ∨ ¬r.Lockable uid → Wrote r uid tid op (some e) r
  | unlocked {new change t v e} : r.Reaches uid t v → v.Unknown change →
      Wrote r uid tid (.update new change) (some e) { r with owner := 0 }
  | first {new data} : r.tail = none → r.Lockable uid →
      Wrote r uid tid (.insert new data) none { r with
        owner := uid
        mem := r.mem.put new (Version.allocForInsert data)
        tail := some new, current := some new, head := some new }
  | behind {new data t d} : r.tail = some t → r.mem.get t = some d → d.isDelete = true →
      r.Lockable uid → Wrote r uid tid (.insert new data) none
        (r.appended uid t d new { Version.allocForInsert data with prev := some t })
  | changed {new change t v d} : r.Reaches uid t v → v.Roomy change → v.data = some d →
      Wrote r uid tid (.update new change) none
        { r.appended uid t v new (.updated d t tid change) with tail := some new }

namespace Row

theorem insert_spec (h : r.TailLive) (data : RowData) : ∃ status r',
    r.insert uid new data = .ok (status, r') ∧ Wrote r uid tid (.insert new data) status r' := by
  unfold insert
  obtain ⟨htail, hmissing⟩ | ⟨t, v, htail, hv, hmissing⟩ := tailMissing_spec h
  · rw [hmissing, Exec.ok_bind]
    by_cases hlock : r.Lockable uid
    · rw [lock_of hlock]
      rw [htail]
      exact ⟨_, _, rfl, .first htail hlock⟩
    · rw [lock_none hlock]
      exact ⟨_, _, rfl, .refused (.inr hlock)⟩
  · rw [hmissing, Exec.ok_bind]
    cases hdelete : v.isDelete with
    | false => exact ⟨_, _, rfl, .refused (.inl (hmissing.trans (hdelete ▸ rfl)))⟩
    | true =>
      by_cases hlock : r.Lockable uid
      · rw [lock_of hlock]
        obtain ⟨current, head, tail, owner, mem⟩ := r
        cases htail
        dsimp only
        rw [read_eq_ok.mpr ⟨rfl, hv⟩]
        exact ⟨_, _, rfl, .behind rfl hv hdelete hlock⟩
      · rw [lock_none hlock]
        exact ⟨_, _, rfl, .refused (.inr hlock)⟩

theorem update_spec (h : r.TailLive) (change : List ColumnChange) :
    (∃ status r', r.update uid new tid change = .ok (status, r') ∧
      Wrote r uid tid (.update new change) status r') ∨
    ((∃ t v, r.Reaches uid t v ∧ ¬v.Unknown change ∧ ¬v.Roomy change) ∧
      ∃ f, r.update uid new tid change = .error f) := by
  unfold update
  obtain ⟨t, v, hreach⟩ | hmissing | ⟨hmissing, hlock⟩ := reaches_or_refused h uid
  · obtain ⟨htail, hv, hdelete, hlock⟩ := hreach
    rw [tailMissing_some htail hv, Exec.ok_bind, hdelete, lock_of hlock]
    obtain ⟨current, head, tail, owner, mem⟩ := r
    cases htail
    simp only [Bool.false_eq_true, if_false, read_eq_ok.mpr ⟨rfl, hv⟩, Exec.ok_bind]
    have hreach : Reaches ⟨current, head, some t, owner, mem⟩ uid t v := ⟨rfl, hv, hdelete, hlock⟩
    obtain ⟨d, hd, hroomy, hupdate⟩ | ⟨hunknown, e, hupdate⟩ | ⟨hroomy, hunknown, f, hupdate⟩ :=
      Version.update_cases mem t v new tid change
    · rw [hupdate]
      exact .inl ⟨_, _, rfl, .changed hreach hroomy hd⟩
    · rw [hupdate]
      exact .inl ⟨_, _, rfl, .unlocked hreach hunknown⟩
    · rw [hupdate]
      exact .inr ⟨⟨t, v, hreach, hunknown, hroomy⟩, f, rfl⟩
  · rw [hmissing]
    exact .inl ⟨_, _, rfl, .refused (.inl hmissing)⟩
  · rw [hmissing, lock_none hlock]
    exact .inl ⟨_, _, rfl, .refused (.inr hlock)⟩

/-- A drop is refused, or it faults. -/
theorem drop_spec (h : r.TailLive) :
    (∃ status r', r.drop uid new tid = .ok (status, r') ∧ Wrote r uid tid (.drop new) status r') ∨
    ((∃ t v, r.Reaches uid t v) ∧ ∃ f, r.drop uid new tid = .error f) := by
  unfold drop
  obtain ⟨t, v, hreach⟩ | hmissing | ⟨hmissing, hlock⟩ := reaches_or_refused h uid
  · refine .inr ⟨⟨t, v, hreach⟩, .outOfBounds, ?_⟩
    obtain ⟨htail, hv, hdelete, hlock⟩ := hreach
    rw [tailMissing_some htail hv, Exec.ok_bind, hdelete, lock_of hlock]
    obtain ⟨current, head, tail, owner, mem⟩ := r
    cases htail
    simp only [Bool.false_eq_true, if_false, read_eq_ok.mpr ⟨rfl, hv⟩, Exec.ok_bind,
      Version.drop_eq]
    rfl
  · rw [hmissing]
    exact .inl ⟨_, _, rfl, .refused (.inl hmissing)⟩
  · rw [hmissing, lock_none hlock]
    exact .inl ⟨_, _, rfl, .refused (.inr hlock)⟩

end Row

/-- An operation ends in one of its ways, or it faults and is not safe. -/
theorem apply_cases (h : r.TailLive) (uid tid : Nat) (op : Op) :
    op.Safe r uid ∧ (∃ status r', op.apply uid tid r = .ok (status, r') ∧
      Wrote r uid tid op status r') ∨
    ¬op.Safe r uid ∧ ∃ f, op.apply uid tid r = .error f := by
  cases op with
  | insert new data => exact .inl ⟨trivial, Row.insert_spec h data⟩
  | update new change =>
    obtain ⟨status, r', happly, hwrote⟩ | ⟨⟨t, v, hreach, hunknown, hroomy⟩, hfault⟩ :=
      @Row.update_spec r uid new tid h change
    · refine .inl ⟨?_, status, r', happly, hwrote⟩
      intro t v hreach
      cases hwrote with
      | refused hrefused => exact absurd hrefused hreach.not_refused
      | unlocked hreach' hunknown =>
        cases hreach.unique hreach'
        exact .inl hunknown
      | changed hreach' hroomy _ =>
        cases hreach.unique hreach'
        exact .inr hroomy
    · exact .inr ⟨fun hsafe => (hsafe t v hreach).elim hunknown hroomy, hfault⟩
  | drop new =>
    obtain ⟨status, r', happly, hwrote⟩ | ⟨⟨t, v, hreach⟩, hfault⟩ := @Row.drop_spec r uid new tid h
    · refine .inl ⟨?_, status, r', happly, hwrote⟩
      intro t v hreach
      cases hwrote with
      | refused hrefused => exact hreach.not_refused hrefused
    · exact .inr ⟨fun hsafe => hsafe t v hreach, hfault⟩

theorem apply_spec {op : Op} (h : r.TailLive) (hsafe : op.Safe r uid) :
    ∃ status r', op.apply uid tid r = .ok (status, r') ∧ Wrote r uid tid op status r' := by
  obtain ⟨-, hwrote⟩ | ⟨hnot, -⟩ := apply_cases h uid tid op
  · exact hwrote
  · exact absurd hsafe hnot

/-- Every operation begins with a look at the tail. -/
theorem tailLive_of_apply {op : Op} {x : Status × Row} (happly : op.apply uid tid r = .ok x) :
    r.TailLive := by
  have hlooks : ∃ missing, r.tailMissing = .ok missing := by
    cases op with
    | insert new data =>
      obtain ⟨missing, hmissing, -⟩ := Exec.of_bind happly
      exact ⟨missing, hmissing⟩
    | update new change =>
      obtain ⟨missing, hmissing, -⟩ := Exec.of_bind happly
      exact ⟨missing, hmissing⟩
    | drop new =>
      obtain ⟨missing, hmissing, -⟩ := Exec.of_bind happly
      exact ⟨missing, hmissing⟩
  obtain ⟨missing, hmissing⟩ := hlooks
  intro t ht
  rw [Row.tailMissing, ht] at hmissing
  obtain ⟨⟨a, v⟩, hread, -⟩ := Exec.of_bind hmissing
  obtain ⟨⟨⟩, hv⟩ := read_eq_ok.mp hread
  rw [hv]
  rfl

/-- What an operation has done that does not fault. -/
theorem wrote_of_apply {op : Op} {status : Status} {r' : Row}
    (happly : op.apply uid tid r = .ok (status, r')) :
    op.Safe r uid ∧ Wrote r uid tid op status r' := by
  have hlive := tailLive_of_apply happly
  obtain ⟨hsafe, status', r'', happly', hwrote⟩ | ⟨-, f, hfault⟩ := apply_cases hlive uid tid op
  · cases happly.symm.trans happly'
    exact ⟨hsafe, hwrote⟩
  · cases happly.symm.trans hfault

namespace Row

/-! ## Chains of a row -/

variable {t : Nat} {v w : Version} {l : List Nat} {p : Option Nat}

theorem get_appended_tail : (r.appended uid t v new w).mem.get t = some { v with next := some new } :=
  Cells.get_put_self

theorem get_appended_new (hne : new ≠ t) : (r.appended uid t v new w).mem.get new = some w :=
  (Cells.get_put_of_ne hne).trans Cells.get_put_self

theorem get_appended_of_ne {a : Nat} (ht : a ≠ t) (hnew : a ≠ new) :
    (r.appended uid t v new w).mem.get a = r.mem.get a :=
  (Cells.get_put_of_ne ht).trans (Cells.get_put_of_ne hnew)

theorem chain_appended (h : Chain r.mem p l) (ht : t ∈ l) (hnew : r.mem.get new = none)
    (hw : w.next = none) :
    ∃ l', Chain (r.appended uid t v new w).mem p l' ∧ t ∈ l' ∧ new ∈ l' := by
  have hlive : ∀ a ∈ l, a ≠ new := by
    rintro a ha rfl
    obtain ⟨x, hx⟩ := h.get_of_mem ha
    rw [hnew] at hx
    cases hx
  have hne : new ≠ t := (hlive t ht).symm
  have hnodup := h.nodup
  obtain ⟨l₁, l₂, rfl⟩ := List.append_of_mem ht
  have hlast : Chain (r.appended uid t v new w).mem (some new) [new] :=
    .cons (get_appended_new hne) (hw ▸ .nil)
  refine ⟨l₁ ++ t :: [new], h.redirect (fun b hb => ?_) get_appended_tail hlast, by simp, by simp⟩
  apply get_appended_of_ne
  · rintro rfl
    exact (List.nodup_append.mp hnodup).2.2 b hb b (by simp) rfl
  · exact hlive b (by simp [hb])

/-! ## Rollback -/

theorem freeFrom_spec {mem : Memory} {p : Option Nat} {l : List Nat} {fuel : Nat}
    (h : Chain mem p l) (hfuel : l.length ≤ fuel) :
    freeFrom fuel p mem = .ok (mem.freeAll l) := by
  induction l generalizing mem p fuel with
  | nil =>
    cases h
    unfold freeFrom
    rfl
  | cons a l ih =>
    have hnodup := h.nodup
    cases h with
    | @cons _ v _ hget hrest =>
      obtain ⟨fuel, rfl⟩ : ∃ n, fuel = n + 1 := Nat.exists_eq_add_one.mpr (by simp at hfuel; omega)
      rw [freeFrom, read_eq_ok.mpr ⟨rfl, hget⟩, Exec.ok_bind]
      -- the rest of the chain is not the cell that is freed
      have hrest' : Chain (mem.free a) v.next l := hrest.congr fun b hb =>
        Cells.get_free_of_ne fun hba : b = a => (List.nodup_cons.mp hnodup).1 (hba ▸ hb)
      exact ih hrest' (by simpa using hfuel)

/-- The row after `rollback`, where `c` is current and `l` behind it. -/
def rolledBack (r : Row) (c : Nat) (v : Version) (l : List Nat) : Row :=
  { r with
    owner := 0
    mem := (r.mem.put c { v with next := none }).freeAll l }

theorem rollback_spec {c : Nat} {v : Version} {l : List Nat} (hcurrent : r.current = some c)
    (hv : r.mem.get c = some v) (h : Chain r.mem (some c) (c :: l)) :
    r.rollback = .ok (r.rolledBack c v l) := by
  have hnodup := h.nodup
  have hrest : Chain (r.mem.put c { v with next := none }) v.next l := by
    cases h with
    | cons hget hrest =>
      cases hget.symm.trans hv
      exact hrest.congr fun b hb =>
        Cells.get_put_of_ne fun hbc => (List.nodup_cons.mp hnodup).1 (hbc ▸ hb)
  rw [rollback, read_eq_ok.mpr ⟨hcurrent, hv⟩, Exec.ok_bind]
  dsimp only
  rw [freeFrom_spec hrest (Nat.le_succ_of_le hrest.length_le)]
  rfl

end Row

end DBStream.Native.KVDB
