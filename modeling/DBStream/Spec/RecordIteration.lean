import DBStream.Native.RecordIterator
import DBStream.Spec.FinishedBlocks
import DBStream.Spec.ScanCorrect

/-!
# Going through a block in its two forms

`acceptedRows` are the records of a block a client should see: those the filter accepts, in the
order of their ids.  Each iterator is related to the records it still has to give
(`AppendingBlockIterator.Ahead`, `SolidBlockIterator.Ahead`); every `next` keeps the relation, so
a scan gives them all once `begin` has established it.

`begin` does so only for ascending iterators.  With a filter, that of the appending block also
asks `getRecord` for the number of a record in place of its id, and that of the solid block gives
up when it was `INVALID` before and neither of the first two records passes.
-/

namespace DBStream.Native

open AppendingBlock

/-! ## The records to come -/

/-- The filter accepts the record. -/
def RecordFilter.accepts (filter : Option RecordFilter) (r : Record) : Bool :=
  match filter with
  | none => true
  | some f => f.filterByRecord r.data

/-- What a client sees of the record with the number `i`. -/
def recordRow (minRecordId : Nat) (r : Record) (i : Nat) : Nat × Option (List UInt8) :=
  (minRecordId + i, some (r.stamped (minRecordId + i)))

/-- The records from number `n` on that the filter accepts. -/
def acceptedFrom (filter : Option RecordFilter) (minRecordId : Nat) (acc : List Record) (n : Nat) :
    List (Nat × Option (List UInt8)) :=
  (((acc.drop n).zipIdx n).filter fun x => RecordFilter.accepts filter x.1).map fun x =>
    recordRow minRecordId x.1 x.2

/-- The records that the filter accepts, in the order of their ids. -/
def acceptedRows (filter : Option RecordFilter) (minRecordId : Nat) (acc : List Record) :
    List (Nat × Option (List UInt8)) :=
  acceptedFrom filter minRecordId acc 0

section

variable {filter : Option RecordFilter} {minRecordId n : Nat} {acc : List Record} {r : Record}

theorem acceptedFrom_step (filter : Option RecordFilter) (minRecordId : Nat)
    (hr : acc[n]? = some r) :
    acceptedFrom filter minRecordId acc n =
      if RecordFilter.accepts filter r then
        recordRow minRecordId r n :: acceptedFrom filter minRecordId acc (n + 1)
      else acceptedFrom filter minRecordId acc (n + 1) := by
  obtain ⟨hn, rfl⟩ := List.getElem?_eq_some_iff.mp hr
  unfold acceptedFrom
  rw [List.drop_eq_getElem_cons hn, List.zipIdx_cons, List.filter_cons]
  split <;> rfl

theorem acceptedFrom_end (filter : Option RecordFilter) (minRecordId : Nat)
    (hn : acc.length ≤ n) : acceptedFrom filter minRecordId acc n = [] := by
  unfold acceptedFrom
  rw [List.drop_of_length_le hn]
  rfl

theorem length_acceptedFrom_le (filter : Option RecordFilter) (minRecordId : Nat)
    (acc : List Record) (n : Nat) :
    (acceptedFrom filter minRecordId acc n).length ≤ acc.length := by
  unfold acceptedFrom
  rw [List.length_map]
  have hle := List.length_filter_le (fun x => RecordFilter.accepts filter x.1)
    ((acc.drop n).zipIdx n)
  rw [List.length_zipIdx, List.length_drop] at hle
  omega

private theorem acceptedFrom_eq_nil :
    acceptedFrom filter minRecordId acc n = [] ↔
      ∀ r ∈ acc.drop n, RecordFilter.accepts filter r ≠ true := by
  unfold acceptedFrom
  rw [List.map_eq_nil_iff, List.filter_eq_nil_iff]
  constructor
  · intro h r hr
    obtain ⟨i, hi, rfl⟩ := List.mem_iff_getElem.mp hr
    exact h ((acc.drop n)[i], n + i) (List.mem_iff_getElem.mpr ⟨i, by simpa using hi, by simp⟩)
  · intro h x hx
    exact h x.1 (List.fst_mem_of_mem_zipIdx hx)

theorem filterByRecord_stamped (f : RecordFilter) (r : Record) (id : Nat) :
    f.filterByRecord (r.stamped id) = f.filterByRecord r.data := by
  unfold RecordFilter.filterByRecord
  rw [show RecordHead.type (r.stamped id) = _ from RecordHead.type_setRecordId r.head_le _,
    show RecordHead.logOffset (r.stamped id) = _ from RecordHead.logOffset_setRecordId r.head_le _,
    show RecordHead.timestamp (r.stamped id) = _ from RecordHead.timestamp_setRecordId r.head_le _,
    Record.tableId_stamped]

end

/-! ## Steps of a scan -/

namespace BlockIterator

variable {ι : Type} {M : BlockIterator ι} {it it' : ι} {status : IterStatus} {fuel : Nat}
  {row : Nat × Option (List UInt8)} {l : List (Nat × Option (List UInt8))}

theorem pull_of_ok (hnext : M.next it = .ok (.OK, it')) (hcurrent : M.current it' = .ok row) :
    M.pull it = .ok (some (row, it')) := by
  unfold pull
  rw [hnext]
  show (M.current it' >>= fun row => _) = _
  rw [hcurrent]
  rfl

theorem pull_of_stop (hnext : M.next it = .ok (status, it')) (hstatus : status ≠ .OK) :
    M.pull it = .ok none := by
  unfold pull
  rw [hnext]
  show (if status = .OK then _ else _) = _
  rw [if_neg hstatus]
  rfl

theorem scan_of_record (hbegin : M.begin it = .ok it') (hstatus : M.getStatus it' = .OK)
    (hvalid : M.valid it' = true) (hcurrent : M.current it' = .ok row)
    (hrest : Drain.Yields M.pull it' l) (hfuel : l.length < fuel) :
    M.scan fuel it = .ok (row :: l) := by
  unfold scan
  rw [hbegin]
  show (if M.getStatus it' = .OK then _ else _) = _
  rw [if_pos hstatus, if_pos hvalid, hcurrent, Drain.run_of_yields _ hrest hfuel]
  rfl

theorem scan_of_start (hbegin : M.begin it = .ok it') (hstatus : M.getStatus it' = .OK)
    (hvalid : M.valid it' = false) : M.scan fuel it = Drain.run .endless M.pull fuel it' := by
  unfold scan
  rw [hbegin]
  show (if M.getStatus it' = .OK then _ else _) = _
  rw [if_pos hstatus, if_neg (by rw [hvalid]; decide)]

theorem scan_of_stop (hbegin : M.begin it = .ok it') (hstatus : M.getStatus it' ≠ .OK) :
    M.scan fuel it = .ok [] := by
  unfold scan
  rw [hbegin]
  show (if M.getStatus it' = .OK then _ else _) = _
  rw [if_neg hstatus]
  rfl

theorem scan_of_error {e : Fault} (hbegin : M.begin it = .error e) :
    M.scan fuel it = .error e := by
  unfold scan
  rw [hbegin]
  rfl

end BlockIterator

/-! ## The appending block -/

/-- The block is finished and holds the records. -/
structure AppendingBlock.HasRecords {I : IndexImpl} (b : AppendingBlock I) (acc : List Record) :
    Prop where
  count : b.m_recordCount = acc.length
  size : b.m_recordCount ≤ maxRecordInBlock
  finished : b.m_flag.finished = true
  getRecord : ∀ (i : Nat) (r : Record), acc[i]? = some r →
    b.getRecord (b.m_minRecordId + i) = .ok (r.stamped (b.m_minRecordId + i))
  getRecordByIdx : ∀ (i : Nat) (r : Record), acc[i]? = some r →
    b.getRecordByIdx i = .ok (r.stamped (b.m_minRecordId + i))

section

variable {I : IndexImpl} {b : AppendingBlock I} {acc : List Record} {flag : Nat}
  {filter : Option RecordFilter} {it : AppendingBlockIterator}

theorem rejects_eq (hb : b.HasRecords acc) (hids : filter = none ∨ b.m_minRecordId = 0) {i : Nat}
    {r : Record} (hr : acc[i]? = some r) :
    AppendingBlockIterator.rejects b (filter.map RecordFilter.toFilter) i =
      .ok !RecordFilter.accepts filter r := by
  cases filter with
  | none => rfl
  | some f =>
    have hmin : b.m_minRecordId = 0 := by
      rcases hids with h | h
      · cases h
      · exact h
    have hread := hb.getRecord i r hr
    rw [hmin, Nat.zero_add] at hread
    show (b.getRecord i >>= fun record => _) = _
    rw [hread]
    show Except.ok (!f.filterByRecord _) = Except.ok (!f.filterByRecord _)
    rw [filterByRecord_stamped]

theorem realNextLoop_eq (hb : b.HasRecords acc) (hids : filter = none ∨ b.m_minRecordId = 0)
    (flag fuel : Nat) {n : Nat} (hn : (it.m_seekedId + 1) % 2 ^ 32 = n)
    (hfuel : acc.length - n < fuel) :
    ∃ it', (acceptedFrom filter b.m_minRecordId acc n = [] ∧
        AppendingBlockIterator.realNextLoop b flag (filter.map RecordFilter.toFilter) fuel it =
          .ok (AppendingBlockIterator.stop .ENDED it')) ∨
      ∃ i r, acc[i]? = some r ∧
        acceptedFrom filter b.m_minRecordId acc n =
          recordRow b.m_minRecordId r i :: acceptedFrom filter b.m_minRecordId acc (i + 1) ∧
        it'.m_seekedId = i ∧
        AppendingBlockIterator.realNextLoop b flag (filter.map RecordFilter.toFilter) fuel it =
          .ok (AppendingBlockIterator.arrive b it') := by
  induction fuel generalizing it n with
  | zero => omega
  | succ fuel ih =>
    have hcount := hb.count
    unfold AppendingBlockIterator.realNextLoop
    simp only [hn, hb.finished, if_true]
    by_cases hend : b.m_recordCount ≤ n
    · rw [if_pos hend]
      exact ⟨it, .inl ⟨acceptedFrom_end _ _ (by omega), rfl⟩⟩
    rw [if_neg hend]
    have hr : acc[n]? = some acc[n] := List.getElem?_eq_getElem (by omega)
    rw [rejects_eq hb hids hr, acceptedFrom_step _ _ hr]
    cases hp : RecordFilter.accepts filter acc[n] with
    | true => exact ⟨_, .inr ⟨n, acc[n], hr, rfl, rfl, rfl⟩⟩
    | false =>
      -- one turn more
      have hsize := hb.size
      unfold maxRecordInBlock at hsize
      exact ih (Nat.mod_eq_of_lt (by show n + 1 < 2 ^ 32; omega)) (by omega)

/-- The iterator has still to give the records of `l`. -/
def AppendingBlockIterator.Ahead (b : AppendingBlock I) (filter : Option RecordFilter)
    (acc : List Record) (it : AppendingBlockIterator) (l : List (Nat × Option (List UInt8))) :
    Prop :=
  it.m_seekedId ≤ acc.length ∧
    acceptedFrom filter b.m_minRecordId acc (it.m_seekedId + 1) = l

theorem current_arrive (flag : Nat) (filter : Option RecordFilter) (hb : b.HasRecords acc)
    {i : Nat} {r : Record} (hr : acc[i]? = some r) (hrec : it.m_recordId = i)
    (hreal : it.m_realRecordId = b.m_minRecordId + i) :
    (appendingBlockIterator b flag (filter.map RecordFilter.toFilter)).current it =
      .ok (recordRow b.m_minRecordId r i) := by
  have hvalue : (appendingBlockIterator b flag (filter.map RecordFilter.toFilter)).value it =
      .ok (some (r.stamped (b.m_minRecordId + i))) := by
    show (b.getRecordByIdx it.m_recordId >>= fun record => _) = _
    rw [hrec, hb.getRecordByIdx i r hr]
    rfl
  unfold BlockIterator.current
  rw [hvalue]
  show Except.ok (it.m_realRecordId, _) = _
  rw [hreal]
  rfl

/-- An appending iterator gives what is ahead of it. -/
theorem AppendingBlockIterator.Ahead.yields (hb : b.HasRecords acc)
    (hids : filter = none ∨ b.m_minRecordId = 0) (hflag : increase flag = true)
    {l : List (Nat × Option (List UInt8))}
    (h : AppendingBlockIterator.Ahead b filter acc it l) :
    Drain.Yields (appendingBlockIterator b flag (filter.map RecordFilter.toFilter)).pull it l := by
  have hsize := hb.size
  have hcount := hb.count
  unfold maxRecordInBlock at hsize
  have hnext : ∀ it : AppendingBlockIterator, it.m_seekedId ≤ acc.length →
      AppendingBlockIterator.next b flag (filter.map RecordFilter.toFilter) it =
        AppendingBlockIterator.realNextLoop b flag (filter.map RecordFilter.toFilter)
          (b.m_recordCount + 2) it ∧
      (it.m_seekedId + 1) % 2 ^ 32 = it.m_seekedId + 1 := by
    intro it hle
    refine ⟨?_, Nat.mod_eq_of_lt (by omega)⟩
    unfold AppendingBlockIterator.next
    rw [if_pos hflag]
  apply Drain.Yields.of_step _ _ h
  · -- the end
    rintro it ⟨hle, hnil⟩
    obtain ⟨hloop, hmod⟩ := hnext it hle
    obtain ⟨it', ⟨-, hended⟩ | ⟨i, r, -, hcons, -⟩⟩ :=
      realNextLoop_eq hb hids flag (b.m_recordCount + 2) hmod (by omega)
    · exact BlockIterator.pull_of_stop (hloop.trans hended) (by decide)
    · rw [hnil] at hcons
      cases hcons
  · -- a record
    rintro it row l ⟨hle, hcons⟩
    obtain ⟨hloop, hmod⟩ := hnext it hle
    obtain ⟨it', ⟨hnil, -⟩ | ⟨i, r, hr, hcons', hseek, harrive⟩⟩ :=
      realNextLoop_eq hb hids flag (b.m_recordCount + 2) hmod (by omega)
    · rw [hnil] at hcons
      cases hcons
    · rw [hcons] at hcons'
      obtain ⟨rfl, rfl⟩ := List.cons.inj hcons'
      obtain ⟨hlt, -⟩ := List.getElem?_eq_some_iff.mp hr
      have hcurrent : (appendingBlockIterator b flag (filter.map RecordFilter.toFilter)).current
          (AppendingBlockIterator.arrive b it').2 = .ok (recordRow b.m_minRecordId r i) :=
        current_arrive flag filter hb hr hseek
          (by show it'.m_seekedId + b.m_minRecordId = _; omega)
      refine ⟨(AppendingBlockIterator.arrive b it').2,
        BlockIterator.pull_of_ok (hloop.trans harrive) hcurrent, ?_, ?_⟩
      · show it'.m_seekedId ≤ _
        omega
      · show acceptedFrom _ _ _ (it'.m_seekedId + 1) = _
        rw [hseek]

/-- An ascending iterator after the first three lines of `begin`. -/
def AppendingBlockIterator.start (b : AppendingBlock I) (it : AppendingBlockIterator) :
    AppendingBlockIterator :=
  { it with m_recordId := 0, m_seekedId := 0, m_realRecordId := b.m_minRecordId + 0 }

theorem AppendingBlockIterator.begin_accepted {filter : Option Filter}
    (hflag : increase flag = true) (h : rejects b filter 0 = .ok false) :
    begin b flag filter it = .ok { start b it with m_status := .OK } := by
  unfold begin
  simp only [hflag, if_true, h, Exec.ok_bind]
  rfl

theorem AppendingBlockIterator.begin_rejected {filter : Option Filter} {status : IterStatus}
    {it' : AppendingBlockIterator} (hflag : increase flag = true)
    (h : rejects b filter 0 = .ok true)
    (hnext : realNextLoop b flag filter (b.m_recordCount + 2) (start b it) = .ok (status, it')) :
    begin b flag filter it = .ok { it' with m_status := status } := by
  unfold begin next
  simp only [hflag, if_true, h, Exec.ok_bind]
  show (realNextLoop b flag filter (b.m_recordCount + 2) (start b it) >>= fun x => _) = _
  rw [hnext]
  rfl

/-- An ascending scan gives the accepted records, where there is no filter or the numbers of the
    records are their ids. -/
theorem appending_scan_eq (hb : b.HasRecords acc) (hflag : increase flag = true)
    (h : filter = none ∨ b.m_minRecordId = 0 ∧ acc ≠ []) (it : AppendingBlockIterator) :
    (appendingBlockIterator b flag (filter.map RecordFilter.toFilter)).scan (b.m_recordCount + 2) it =
      .ok (acceptedRows filter b.m_minRecordId acc) := by
  have hids : filter = none ∨ b.m_minRecordId = 0 := h.imp_right And.left
  have hcount := hb.count
  have hfuel : ∀ n, (acceptedFrom filter b.m_minRecordId acc n).length < b.m_recordCount + 2 := by
    intro n
    have := length_acceptedFrom_le filter b.m_minRecordId acc n
    omega
  cases hr : acc[0]? with
  | none =>
    -- an empty block, so there is no filter
    have hnil : acc = [] := by simpa using hr
    obtain rfl | ⟨-, hne⟩ := h
    swap
    · exact absurd hnil hne
    have hahead : AppendingBlockIterator.Ahead b none acc
        { AppendingBlockIterator.start b it with m_status := .OK } [] :=
      ⟨Nat.zero_le _, acceptedFrom_end _ _ (by rw [hnil]; exact Nat.zero_le _)⟩
    rw [BlockIterator.scan_of_start (AppendingBlockIterator.begin_accepted hflag rfl) rfl,
      Drain.run_of_yields _ (hahead.yields hb hids hflag) (Nat.zero_lt_succ _), acceptedRows,
      acceptedFrom_end _ _ (by rw [hnil]; exact Nat.zero_le _)]
    show decide (0 < b.m_recordCount) = false
    rw [hcount, hnil]
    rfl
  | some r =>
    have hrejects := rejects_eq hb hids hr
    obtain ⟨hpos, -⟩ := List.getElem?_eq_some_iff.mp hr
    unfold acceptedRows
    rw [acceptedFrom_step _ _ hr]
    cases hp : RecordFilter.accepts filter r with
    | true =>
      rw [hp] at hrejects
      have hahead : AppendingBlockIterator.Ahead b filter acc
          { AppendingBlockIterator.start b it with m_status := .OK }
          (acceptedFrom filter b.m_minRecordId acc (0 + 1)) := ⟨Nat.zero_le _, rfl⟩
      exact BlockIterator.scan_of_record
        (AppendingBlockIterator.begin_accepted hflag hrejects) rfl
        (decide_eq_true (by show 0 < b.m_recordCount; omega)) (current_arrive flag filter hb hr rfl rfl)
        (hahead.yields hb hids hflag) (hfuel _)
    | false =>
      rw [hp] at hrejects
      obtain ⟨it', ⟨hnil, hended⟩ | ⟨i, r', hr', hcons, hseek, harrive⟩⟩ :=
        realNextLoop_eq hb hids flag (b.m_recordCount + 2)
          (show ((AppendingBlockIterator.start b it).m_seekedId + 1) % 2 ^ 32 = 0 + 1 from rfl)
          (by omega)
      · rw [BlockIterator.scan_of_stop
          (AppendingBlockIterator.begin_rejected hflag hrejects hended)
          (show IterStatus.ENDED ≠ .OK by decide)]
        exact congrArg Except.ok hnil.symm
      · obtain ⟨hlt, -⟩ := List.getElem?_eq_some_iff.mp hr'
        have hahead : AppendingBlockIterator.Ahead b filter acc
            { (AppendingBlockIterator.arrive b it').2 with m_status := .OK }
            (acceptedFrom filter b.m_minRecordId acc (i + 1)) := by
          refine ⟨?_, ?_⟩
          · show it'.m_seekedId ≤ _
            omega
          · show acceptedFrom _ _ _ (it'.m_seekedId + 1) = _
            rw [hseek]
        rw [hcons]
        exact BlockIterator.scan_of_record
          (AppendingBlockIterator.begin_rejected hflag hrejects harrive) rfl
          (decide_eq_true (by show it'.m_seekedId < b.m_recordCount; omega))
          (current_arrive flag filter hb hr' hseek
            (by show it'.m_seekedId + b.m_minRecordId = _; omega))
          (hahead.yields hb hids hflag) (hfuel _)

theorem AppendingBlockIterator.begin_descending (b : AppendingBlock I)
    (it : AppendingBlockIterator) (hflag : increase flag ≠ true) :
    begin b flag none it = .ok { it with
      m_recordId := b.m_recordCount
      m_seekedId := b.m_recordCount
      m_realRecordId := b.m_minRecordId + b.m_recordCount
      m_status := .OK } := by
  unfold begin
  rw [if_neg hflag]
  rfl

theorem appending_scan_descending (hb : b.HasRecords acc) (hflag : increase flag ≠ true)
    (hne : acc ≠ []) (fuel : Nat) (hfuel : 0 < fuel) (it : AppendingBlockIterator) :
    (appendingBlockIterator b flag none).scan fuel it = .error .nullDeref := by
  have hcount : b.m_recordCount ≠ 0 := by
    rw [hb.count]
    simpa using hne
  rw [BlockIterator.scan_of_start (AppendingBlockIterator.begin_descending b it hflag) rfl
    (decide_eq_false (Nat.lt_irrefl _))]
  apply Drain.run_of_error _ fuel hfuel
  show (AppendingBlockIterator.next b flag none _ >>= fun x => _) = _
  unfold AppendingBlockIterator.next AppendingBlockIterator.realPrevLoop
  rw [if_neg hflag, if_neg hcount]
  rfl

theorem appending_scan_empty (hb : b.HasRecords []) (hflag : increase flag ≠ true) (fuel : Nat)
    (hfuel : 0 < fuel) (it : AppendingBlockIterator) :
    (appendingBlockIterator b flag none).scan fuel it = .ok [] := by
  have hcount : b.m_recordCount = 0 := hb.count
  rw [BlockIterator.scan_of_start (AppendingBlockIterator.begin_descending b it hflag) rfl
    (decide_eq_false (Nat.lt_irrefl _))]
  refine Drain.run_of_yields _ (.nil ?_) hfuel
  show (AppendingBlockIterator.next b flag none _ >>= fun x => _) = _
  unfold AppendingBlockIterator.next AppendingBlockIterator.realPrevLoop
  rw [if_neg hflag, if_pos hcount]
  rfl

/-- With a filter an iterator on a block with another first id than 0 reads outside of
    `m_recordIDs`. -/
theorem appending_scan_ids (f : Filter) (hflag : increase flag = true) (hmin : b.m_minRecordId ≠ 0)
    (fuel : Nat) (it : AppendingBlockIterator) :
    (appendingBlockIterator b flag (some f)).scan fuel it = .error .outOfBounds := by
  apply BlockIterator.scan_of_error
  show AppendingBlockIterator.begin b flag (some f) it = _
  unfold AppendingBlockIterator.begin
  simp only [hflag, if_true]
  unfold AppendingBlockIterator.rejects AppendingBlock.getRecord
  rw [if_pos (Nat.pos_of_ne_zero hmin)]
  rfl

end

/-! ## The solid block -/

/-- The solid block has the records of the appending block. -/
structure SolidBlock.HasRecords {I : IndexImpl} (Γ : MetaDataCollection I) (b : AppendingBlock I)
    (acc : List Record) (s : SolidBlock) : Prop where
  head : s.head = b.solidHead
  count : b.m_recordCount = acc.length
  size : b.m_recordCount ≤ maxRecordInBlock
  infos : s.m_recordInfos.length = b.m_recordCount
  preserved : Preserved Γ b acc s

section

variable {I : IndexImpl} {Γ : MetaDataCollection I} {b : AppendingBlock I} {acc : List Record}
  {s : SolidBlock} {flag : Nat} {filter : Option RecordFilter} {it : SolidBlockIterator}

theorem SolidBlock.HasRecords.recordCount (hs : s.HasRecords Γ b acc) :
    s.head.m_recordCount = acc.length := by
  rw [hs.head]
  exact hs.count

theorem SolidBlock.HasRecords.minRecordId (hs : s.HasRecords Γ b acc) :
    s.head.m_minRecordId = b.m_minRecordId := by
  rw [hs.head]
  rfl

theorem SolidBlock.HasRecords.tables (hs : s.HasRecords Γ b acc) : s.Tables where
  infos := by
    rw [hs.infos, hs.head]
    rfl
  tables := by
    intro info hinfo
    obtain ⟨i, hi, rfl⟩ := List.mem_iff_getElem.mp hinfo
    have hlt : i < acc.length := by
      rw [← hs.count, ← hs.infos]
      exact hi
    obtain ⟨info', hinfo', -, -, -, ⟨table, htable, -⟩, -⟩ :=
      hs.preserved i _ (List.getElem?_eq_getElem hlt)
    rw [List.getElem?_eq_getElem hi] at hinfo'
    cases hinfo'
    exact (List.getElem?_eq_some_iff.mp htable).1
  count := by
    have hsize := hs.size
    unfold maxRecordInBlock at hsize
    rw [hs.head]
    show b.m_recordCount < 2 ^ 32 - 1
    omega

def recordBytes (minRecordId : Nat) (acc : List Record) (_ : SolidBlock) (i : Nat) : List UInt8 :=
  match acc[i]? with
  | none => []
  | some r => r.stamped (minRecordId + i)

theorem memoryPages_value (hs : s.HasRecords Γ b acc) {i : Nat} {r : Record}
    (hr : acc[i]? = some r) :
    memoryPages.value s i () = .ok (some (r.stamped (b.m_minRecordId + i)), ()) := by
  obtain ⟨info, hinfo, -, -, -, -, page, data, hpage, hdata, hat⟩ := hs.preserved i r hr
  unfold memoryPages tableAt
  simp only [hinfo, Exec.ok_bind, hpage, hdata, hat]
  rfl

theorem memoryPages_reads (hs : s.HasRecords Γ b acc) :
    memoryPages.Reads (recordBytes b.m_minRecordId acc) [s] where
  value := by
    intro s' hs' i hi u
    rw [List.mem_singleton.mp hs'] at hi ⊢
    rw [hs.recordCount] at hi
    have hr := List.getElem?_eq_getElem hi
    refine ⟨(), ?_⟩
    rw [memoryPages_value hs hr]
    unfold recordBytes
    rw [hr]
  clear := fun _ _ _ => ⟨(), rfl⟩

theorem passes_eq (filter : Option RecordFilter) (hs : s.HasRecords Γ b acc) {i : Nat} {r : Record}
    (hr : acc[i]? = some r) :
    passes (recordBytes b.m_minRecordId acc) (filter.map RecordFilter.toFilter) s i =
      RecordFilter.accepts filter r := by
  cases filter with
  | none => rfl
  | some f =>
    obtain ⟨info, hinfo, htype, -, hlog, ⟨table, htable, -⟩, -⟩ := hs.preserved i r hr
    have hgeneral : f.filterByGeneralInfo table.tableId info.recordType info.logOffset
        info.timestamp = f.filterByRecord r.data := by
      rw [htype, hlog]
      rfl
    have hbytes : f.filterByRecord (recordBytes b.m_minRecordId acc s i) =
        f.filterByRecord r.data := by
      unfold recordBytes
      rw [hr]
      exact filterByRecord_stamped f r _
    unfold passes
    simp only [Option.map_some, hinfo, htable]
    show (f.filterByGeneralInfo table.tableId info.recordType info.logOffset info.timestamp &&
      (f.onlyNeedGeneralInfo || f.filterByRecord (recordBytes b.m_minRecordId acc s i))) =
      f.filterByRecord r.data
    rw [hgeneral, hbytes]
    cases f.filterByRecord r.data <;> simp

theorem acceptedFrom_eq_rows (filter : Option RecordFilter) (hs : s.HasRecords Γ b acc)
    (n : Nat) :
    acceptedFrom filter b.m_minRecordId acc n =
      (rows (recordBytes b.m_minRecordId acc) (filter.map RecordFilter.toFilter) s n).filterMap
        fun i => acc[i]?.map fun r => recordRow b.m_minRecordId r i := by
  have hcount := hs.recordCount
  generalize hk : acc.length - n = k
  induction k generalizing n with
  | zero =>
    rw [acceptedFrom_end _ _ (by omega), rows_step, if_neg (by omega)]
    rfl
  | succ k ih =>
    have hr : acc[n]? = some acc[n] := List.getElem?_eq_getElem (by omega)
    rw [acceptedFrom_step _ _ hr, ih (n + 1) (by omega), rows_step _ _ s n,
      if_pos (show n < s.head.m_recordCount by omega), passes_eq filter hs hr]
    split
    · rw [List.singleton_append, List.filterMap_cons, hr]
      rfl
    · rw [List.nil_append]

theorem current_at (flag : Nat) (filter : Option RecordFilter) (hs : s.HasRecords Γ b acc)
    {i : Nat} {r : Record} (hr : acc[i]? = some r) (hrec : it.m_recordId = i)
    (hreal : it.m_realRecordId = b.m_minRecordId + i) :
    (solidBlockIterator s flag (filter.map RecordFilter.toFilter)).current it =
      .ok (recordRow b.m_minRecordId r i) := by
  have hvalue : (solidBlockIterator s flag (filter.map RecordFilter.toFilter)).value it =
      .ok (some (r.stamped (b.m_minRecordId + i))) := by
    show (memoryPages.value s it.m_recordId () >>= fun x => _) = _
    rw [hrec, memoryPages_value hs hr]
    rfl
  unfold BlockIterator.current
  rw [hvalue]
  show Except.ok (it.m_realRecordId, _) = _
  rw [hreal]
  rfl

/-- The iterator has still to give the records of `l`. -/
def SolidBlockIterator.Ahead (b : AppendingBlock I) (filter : Option RecordFilter)
    (acc : List Record) (it : SolidBlockIterator) (l : List (Nat × Option (List UInt8))) : Prop :=
  it.m_seekedId ≤ acc.length ∧ it.m_status ≠ .INVALID ∧
    acceptedFrom filter b.m_minRecordId acc (it.m_seekedId + 1) = l

/-- A solid iterator gives what is ahead of it. -/
theorem SolidBlockIterator.Ahead.yields (hs : s.HasRecords Γ b acc) (hflag : increase flag = true)
    {l : List (Nat × Option (List UInt8))} (h : SolidBlockIterator.Ahead b filter acc it l) :
    Drain.Yields (solidBlockIterator s flag (filter.map RecordFilter.toFilter)).pull it l := by
  -- one call of `next`
  have hnext : ∀ it : SolidBlockIterator, it.m_seekedId ≤ acc.length → it.m_status ≠ .INVALID →
      ∃ st it', (solidBlockIterator s flag (filter.map RecordFilter.toFilter)).next it =
        .ok (st, it') ∧ Stepped (recordBytes b.m_minRecordId acc)
          (filter.map RecordFilter.toFilter) s (it.m_seekedId + 1) it.m_status (st, it') := by
    intro it hle hst
    obtain ⟨st, it', u, hnext, hstep⟩ := next_stepped (filter.map RecordFilter.toFilter) it
      (List.mem_singleton_self s) (memoryPages_reads hs) hs.tables hflag rfl
      (by rw [hs.recordCount]; exact hle) hst ()
    refine ⟨st, it', ?_, hstep⟩
    show (SolidBlockIterator.next memoryPages s flag _ it () >>= fun x => _) = _
    rw [hnext]
    rfl
  apply Drain.Yields.of_step _ _ h
  · -- the end
    rintro it ⟨hle, hst, hnil⟩
    obtain ⟨st, it', hnext, hstep⟩ := hnext it hle hst
    cases hstep with
    | ended _ _ => exact BlockIterator.pull_of_stop hnext (by decide)
    | @found _ i _ _ hi hrows =>
      rw [acceptedFrom_eq_rows filter hs, hrows] at hnil
      rw [hs.recordCount] at hi
      rw [List.filterMap_cons, List.getElem?_eq_getElem hi] at hnil
      cases hnil
  · -- a record
    rintro it row l ⟨hle, hst, hcons⟩
    obtain ⟨st, it', hnext, hstep⟩ := hnext it hle hst
    rw [acceptedFrom_eq_rows filter hs] at hcons
    cases hstep with
    | ended _ hnil =>
      rw [hnil] at hcons
      cases hcons
    | @found _ i hat hst' hi hrows =>
      rw [hs.recordCount] at hi
      have hr := List.getElem?_eq_getElem hi
      rw [hrows, List.filterMap_cons, hr, Option.map_some, ← acceptedFrom_eq_rows filter hs] at hcons
      obtain ⟨rfl, rfl⟩ := List.cons.inj hcons
      have hreal : it'.m_realRecordId = b.m_minRecordId + i := by
        rw [hat.realRecordId, hs.minRecordId, Nat.add_comm]
      refine ⟨it', BlockIterator.pull_of_ok hnext
        (current_at flag filter hs hr hat.recordId hreal), ?_, ?_, ?_⟩
      · rw [hat.seekedId]
        exact Nat.le_of_lt hi
      · rw [hst']
        exact hst
      · rw [hat.seekedId]

theorem solid_scan_record (filter : Option RecordFilter) (hs : s.HasRecords Γ b acc)
    (hflag : increase flag = true) {it' : SolidBlockIterator} {i : Nat} {r : Record}
    (hbegin : (solidBlockIterator s flag (filter.map RecordFilter.toFilter)).begin it = .ok it')
    (hat : it'.At s i) (hst : it'.m_status = .OK) (hr : acc[i]? = some r) :
    (solidBlockIterator s flag (filter.map RecordFilter.toFilter)).scan
      (s.head.m_recordCount + 2) it =
      .ok (recordRow b.m_minRecordId r i :: acceptedFrom filter b.m_minRecordId acc (i + 1)) := by
  obtain ⟨hi, -⟩ := List.getElem?_eq_some_iff.mp hr
  have hahead : SolidBlockIterator.Ahead b filter acc it'
      (acceptedFrom filter b.m_minRecordId acc (i + 1)) := by
    refine ⟨?_, ?_, ?_⟩
    · rw [hat.seekedId]
      exact Nat.le_of_lt hi
    · rw [hst]
      decide
    · rw [hat.seekedId]
  have hlen := length_acceptedFrom_le filter b.m_minRecordId acc (i + 1)
  have hcount := hs.recordCount
  apply BlockIterator.scan_of_record hbegin hst _ _ (hahead.yields hs hflag) (by omega)
  · show decide (it'.m_recordId < s.head.m_recordCount) = true
    rw [hat.recordId]
    exact decide_eq_true (by omega)
  · exact current_at flag filter hs hr hat.recordId
      (by rw [hat.realRecordId, hs.minRecordId, Nat.add_comm])

theorem solid_scan_all (hs : s.HasRecords Γ b acc) (hflag : increase flag = true)
    (it : SolidBlockIterator) :
    (solidBlockIterator s flag none).scan (s.head.m_recordCount + 2) it =
      .ok (acceptedRows none b.m_minRecordId acc) := by
  have hbegin : (solidBlockIterator s flag none).begin it = .ok { it with
      m_recordId := 0
      m_seekedId := 0
      m_realRecordId := s.head.m_minRecordId
      m_status := .OK } := by
    show (SolidBlockIterator.begin memoryPages s flag none it () >>= fun x => _) = _
    unfold SolidBlockIterator.begin
    rw [if_pos hflag]
    rfl
  unfold acceptedRows
  cases hr : acc[0]? with
  | none =>
    have hnil : acc = [] := by simpa using hr
    have hend : ∀ n, acceptedFrom none b.m_minRecordId acc n = [] := fun n =>
      acceptedFrom_end _ _ (by rw [hnil]; exact Nat.zero_le n)
    have hahead : SolidBlockIterator.Ahead b none acc { it with
        m_recordId := 0
        m_seekedId := 0
        m_realRecordId := s.head.m_minRecordId
        m_status := .OK } [] := ⟨Nat.zero_le _, IterStatus.noConfusion, hend _⟩
    rw [BlockIterator.scan_of_start hbegin rfl, hend]
    · exact Drain.run_of_yields _ (hahead.yields hs hflag) (Nat.zero_lt_succ _)
    · show decide (0 < s.head.m_recordCount) = false
      rw [hs.recordCount, hnil]
      rfl
  | some r =>
    rw [acceptedFrom_step _ _ hr]
    exact solid_scan_record none hs hflag hbegin ⟨rfl, rfl, (Nat.zero_add _).symm⟩ rfl hr

/-- The records with numbers below `n`, the last one first. -/
def rowsBelow (minRecordId : Nat) (acc : List Record) (n : Nat) :
    List (Nat × Option (List UInt8)) :=
  ((acc.take n).zipIdx.map fun x => recordRow minRecordId x.1 x.2).reverse

private theorem rowsBelow_succ (minRecordId : Nat) {n : Nat} {r : Record} (hr : acc[n]? = some r) :
    rowsBelow minRecordId acc (n + 1) =
      recordRow minRecordId r n :: rowsBelow minRecordId acc n := by
  obtain ⟨hn, rfl⟩ := List.getElem?_eq_some_iff.mp hr
  unfold rowsBelow
  rw [List.take_succ_eq_append_getElem hn, List.zipIdx_append, List.map_append,
    List.reverse_append, List.length_take, Nat.min_eq_left (Nat.le_of_lt hn), Nat.zero_add]
  rfl

private theorem rowsBelow_length (minRecordId : Nat) (acc : List Record) :
    rowsBelow minRecordId acc acc.length = (acceptedRows none minRecordId acc).reverse := by
  unfold rowsBelow acceptedRows acceptedFrom
  rw [List.take_length, List.drop_zero]
  congr 2
  exact (List.filter_eq_self.mpr fun _ _ => rfl).symm

theorem solid_yields_descending (hs : s.HasRecords Γ b acc) (hflag : increase flag ≠ true)
    (it : SolidBlockIterator) (hle : it.m_seekedId ≤ acc.length) :
    Drain.Yields (solidBlockIterator s flag none).pull it
      (rowsBelow b.m_minRecordId acc it.m_seekedId) := by
  generalize hk : it.m_seekedId = k at hle
  induction k generalizing it with
  | zero =>
    have hnext : (solidBlockIterator s flag none).next it =
        .ok (.ENDED, { it with m_status := .ENDED }) := by
      show (SolidBlockIterator.next memoryPages s flag none it () >>= fun x => _) = _
      unfold SolidBlockIterator.next SolidBlockIterator.nextLoop SolidBlockIterator.advance
      rw [if_neg hflag, if_pos hk]
      rfl
    exact .nil (BlockIterator.pull_of_stop hnext (by decide))
  | succ k ih =>
    have hr : acc[k]? = some acc[k] := List.getElem?_eq_getElem (by omega)
    have hnext : (solidBlockIterator s flag none).next it = .ok (.OK, { it with
        m_recordId := k
        m_seekedId := k
        m_realRecordId := k + s.head.m_minRecordId }) := by
      show (SolidBlockIterator.next memoryPages s flag none it () >>= fun x => _) = _
      unfold SolidBlockIterator.next SolidBlockIterator.nextLoop SolidBlockIterator.advance
      rw [if_neg hflag, if_neg (by omega), hk]
      rfl
    rw [rowsBelow_succ _ hr]
    exact .cons (BlockIterator.pull_of_ok hnext (current_at flag none hs hr rfl
      (by rw [hs.minRecordId, Nat.add_comm]))) (ih _ rfl (by omega))

theorem solid_scan_descending (hs : s.HasRecords Γ b acc) (hflag : increase flag ≠ true)
    (it : SolidBlockIterator) :
    (solidBlockIterator s flag none).scan (s.head.m_recordCount + 2) it =
      .ok (acceptedRows none b.m_minRecordId acc).reverse := by
  have hbegin : (solidBlockIterator s flag none).begin it = .ok { it with
      m_recordId := s.head.m_recordCount
      m_seekedId := s.head.m_recordCount
      m_realRecordId := s.head.m_minRecordId + s.head.m_recordCount
      m_status := .OK } := by
    show (SolidBlockIterator.begin memoryPages s flag none it () >>= fun x => _) = _
    unfold SolidBlockIterator.begin
    rw [if_neg hflag]
    rfl
  have hyields := solid_yields_descending hs hflag { it with
    m_recordId := s.head.m_recordCount
    m_seekedId := s.head.m_recordCount
    m_realRecordId := s.head.m_minRecordId + s.head.m_recordCount
    m_status := .OK } (Nat.le_of_eq hs.recordCount)
  rw [show rowsBelow b.m_minRecordId acc s.head.m_recordCount = _ by
    rw [hs.recordCount, rowsBelow_length]] at hyields
  rw [BlockIterator.scan_of_start hbegin rfl (decide_eq_false (Nat.lt_irrefl _))]
  apply Drain.run_of_yields _ hyields
  have hlen := length_acceptedFrom_le none b.m_minRecordId acc 0
  have hcount := hs.recordCount
  rw [List.length_reverse]
  show (acceptedFrom none b.m_minRecordId acc 0).length < _
  omega

/-- What a filter has to find for an ascending iterator whose status was `status` to begin as it
    should: it gives up when it was `INVALID` and neither of the first two records passes, and it
    takes the first record for one that passes when it was `OK`. -/
def RecordFilter.Begins (f : RecordFilter) (status : IterStatus) (acc : List Record) : Prop :=
  (∃ r, acc[0]? = some r ∧ f.filterByRecord r.data = true) ∨
  (status = .INVALID ∧ ∃ r, acc[1]? = some r ∧ f.filterByRecord r.data = true) ∨
  (status ≠ .OK ∧ ∀ r ∈ acc, f.filterByRecord r.data ≠ true)

theorem solid_begin_kept (filter : Option RecordFilter) (hs : s.HasRecords Γ b acc)
    (hflag : increase flag = true) (hpos : 0 < acc.length)
    (hp : passes (recordBytes b.m_minRecordId acc) (filter.map RecordFilter.toFilter) s 0 ≠ true)
    (hst : it.m_status ≠ .INVALID) :
    (solidBlockIterator s flag (filter.map RecordFilter.toFilter)).begin it = .ok { it with
      m_recordId := 0
      m_seekedId := 0
      m_realRecordId := s.head.m_minRecordId } := by
  obtain ⟨u, hu⟩ := filterCurrentSeekRecord_eq (filter.map RecordFilter.toFilter) { it with
    m_recordId := 0
    m_seekedId := 0
    m_realRecordId := s.head.m_minRecordId } (List.mem_singleton_self s) (memoryPages_reads hs)
    hs.tables (by rw [hs.recordCount]; exact hpos) ()
  show (SolidBlockIterator.begin memoryPages s flag _ it () >>= fun x => _) = _
  unfold SolidBlockIterator.begin
  simp only [hflag, if_true, hu, Exec.ok_bind, hp, Bool.false_eq_true, if_false, hst]
  rfl

/-- How an ascending iterator with a filter begins: at the first record if it passes, else at the
    second one if it passes and the iterator was `INVALID`. -/
theorem solid_begin_eq (hs : s.HasRecords Γ b acc) (hflag : increase flag = true) (f : RecordFilter)
    (hpos : 0 < acc.length) (it : SolidBlockIterator) :
    ∃ it', (solidBlockIterator s flag (some f.toFilter)).begin it = .ok it' ∧
      if f.filterByRecord acc[0].data then it'.At s 0 ∧ it'.m_status = .OK
      else if it.m_status = .INVALID then
        if acc.length = 1 then it'.m_status = .ENDED
        else if passes (recordBytes b.m_minRecordId acc) (some f.toFilter) s 1 then
          it'.At s 1 ∧ it'.m_status = .OK
        else it'.m_status = .INVALID
      else it'.m_status = it.m_status := by
  have hpasses : passes (recordBytes b.m_minRecordId acc) (some f.toFilter) s 0 =
      f.filterByRecord acc[0].data := passes_eq (some f) hs (List.getElem?_eq_getElem hpos)
  obtain ⟨it', u, hbegin, hcase⟩ := begin_eq (some f.toFilter) it (List.mem_singleton_self s)
    (memoryPages_reads hs) hs.tables hflag (by rw [hs.recordCount]; exact hpos) ()
  refine ⟨it', ?_, ?_⟩
  · show (SolidBlockIterator.begin memoryPages s flag _ it () >>= fun x => _) = _
    rw [hbegin]
    rfl
  · rw [hpasses, hs.recordCount] at hcase
    split at hcase
    · next hp => rwa [if_pos hp]
    · next hp =>
      rw [if_neg hp]
      split at hcase
      · next hst =>
        rw [if_pos hst]
        exact hcase.2
      · next hst => rwa [if_neg hst]

/-- A scan that stops at once is right when there is nothing to give. -/
theorem solid_scan_stopped (f : RecordFilter) {it' : SolidBlockIterator}
    (hbegin : (solidBlockIterator s flag (some f.toFilter)).begin it = .ok it')
    (hstop : it'.m_status ≠ .OK) :
    (solidBlockIterator s flag (some f.toFilter)).scan (s.head.m_recordCount + 2) it =
      .ok (acceptedRows (some f) b.m_minRecordId acc) ↔ ∀ r ∈ acc, f.filterByRecord r.data ≠ true := by
  have hnone : acceptedRows (some f) b.m_minRecordId acc = [] ↔
      ∀ r ∈ acc, f.filterByRecord r.data ≠ true := acceptedFrom_eq_nil
  rw [BlockIterator.scan_of_stop hbegin hstop, ← hnone]
  constructor
  · intro h
    exact (Except.ok.inj h).symm
  · intro h
    rw [h]

/-- An iterator that was `INVALID` looks at the second record when the first one does not pass. -/
theorem solid_scan_invalid (hs : s.HasRecords Γ b acc) (hflag : increase flag = true)
    (f : RecordFilter) (hpos : 0 < acc.length) (hp : f.filterByRecord acc[0].data ≠ true)
    (hst : it.m_status = .INVALID) :
    (solidBlockIterator s flag (some f.toFilter)).scan (s.head.m_recordCount + 2) it =
      .ok (acceptedRows (some f) b.m_minRecordId acc) ↔
        (∃ r, acc[1]? = some r ∧ f.filterByRecord r.data = true) ∨
          ∀ r ∈ acc, f.filterByRecord r.data ≠ true := by
  obtain ⟨it', hbegin, hcase⟩ := solid_begin_eq hs hflag f hpos it
  rw [if_neg hp, if_pos hst] at hcase
  by_cases hone : acc.length = 1
  · -- there is no second record
    rw [if_pos hone] at hcase
    rw [solid_scan_stopped f hbegin (by rw [hcase]; decide)]
    constructor
    · exact .inr
    · rintro (⟨r, hr, -⟩ | h)
      · rw [List.getElem?_eq_none (by omega)] at hr
        cases hr
      · exact h
  rw [if_neg hone] at hcase
  have hr₁ : acc[1]? = some acc[1] := List.getElem?_eq_getElem (by omega)
  have hpasses₁ : passes (recordBytes b.m_minRecordId acc) (some f.toFilter) s 1 =
      f.filterByRecord acc[1].data := passes_eq (some f) hs hr₁
  rw [hpasses₁] at hcase
  by_cases hp₁ : f.filterByRecord acc[1].data = true
  · -- the second record passes
    rw [if_pos hp₁] at hcase
    have hrows : acceptedRows (some f) b.m_minRecordId acc = _ :=
      (acceptedFrom_step (some f) b.m_minRecordId (List.getElem?_eq_getElem hpos)).trans (if_neg hp)
    have hrows₁ : acceptedFrom (some f) b.m_minRecordId acc 1 = _ :=
      (acceptedFrom_step (some f) b.m_minRecordId hr₁).trans (if_pos hp₁)
    rw [hrows, hrows₁]
    exact iff_of_true (solid_scan_record (some f) hs hflag hbegin hcase.1 hcase.2 hr₁)
      (.inl ⟨_, hr₁, hp₁⟩)
  · -- it gives up
    rw [if_neg hp₁] at hcase
    rw [solid_scan_stopped f hbegin (by rw [hcase]; decide)]
    constructor
    · exact .inr
    · rintro (⟨r, hr, hpass⟩ | h)
      · rw [hr₁] at hr
        cases hr
        exact absurd hpass hp₁
      · exact h

/-- An iterator that was `OK` gives the first record although it does not pass. -/
theorem solid_scan_kept (hs : s.HasRecords Γ b acc) (hflag : increase flag = true)
    (f : RecordFilter) (hpos : 0 < acc.length) (hp : f.filterByRecord acc[0].data ≠ true)
    (hok : it.m_status = .OK) :
    (solidBlockIterator s flag (some f.toFilter)).scan (s.head.m_recordCount + 2) it ≠
      .ok (acceptedRows (some f) b.m_minRecordId acc) := by
  have hr := List.getElem?_eq_getElem hpos
  have hrows : acceptedRows (some f) b.m_minRecordId acc = _ :=
    (acceptedFrom_step (some f) b.m_minRecordId hr).trans (if_neg hp)
  have hpasses : passes (recordBytes b.m_minRecordId acc) (some f.toFilter) s 0 =
      f.filterByRecord acc[0].data := passes_eq (some f) hs hr
  have hbegin := solid_begin_kept (some f) hs hflag hpos
    (by rw [show passes _ ((some f).map _) s 0 = _ from hpasses]; exact hp)
    (by rw [hok]; decide)
  have hscan := solid_scan_record (some f) hs hflag hbegin ⟨rfl, rfl, (Nat.zero_add _).symm⟩ hok hr
  rw [show (some f).map RecordFilter.toFilter = some f.toFilter from rfl] at hscan
  rw [hscan, hrows]
  intro h
  have hlen := congrArg List.length (Except.ok.inj h)
  exact absurd hlen (Nat.succ_ne_self _)

/-- With a filter, an ascending scan gives the accepted records exactly when it begins well. -/
theorem solid_scan_iff (hs : s.HasRecords Γ b acc) (hflag : increase flag = true)
    (f : RecordFilter) (hpos : 0 < acc.length) (it : SolidBlockIterator) :
    (solidBlockIterator s flag (some f.toFilter)).scan (s.head.m_recordCount + 2) it =
      .ok (acceptedRows (some f) b.m_minRecordId acc) ↔ f.Begins it.m_status acc := by
  have hr := List.getElem?_eq_getElem hpos
  obtain ⟨it', hbegin, hcase⟩ := solid_begin_eq hs hflag f hpos it
  by_cases hp : f.filterByRecord acc[0].data = true
  · -- the first record passes
    rw [if_pos hp] at hcase
    have hrows : acceptedRows (some f) b.m_minRecordId acc = _ :=
      (acceptedFrom_step (some f) b.m_minRecordId hr).trans (if_pos hp)
    rw [hrows]
    exact iff_of_true (solid_scan_record (some f) hs hflag hbegin hcase.1 hcase.2 hr)
      (.inl ⟨_, hr, hp⟩)
  have hfirst : ¬ ∃ r, acc[0]? = some r ∧ f.filterByRecord r.data = true := by
    rintro ⟨r, hr', hpass⟩
    rw [hr] at hr'
    cases hr'
    exact hp hpass
  by_cases hst : it.m_status = .INVALID
  · rw [solid_scan_invalid hs hflag f hpos hp hst]
    unfold RecordFilter.Begins
    rw [hst]
    simp [hfirst]
  by_cases hok : it.m_status = .OK
  · refine iff_of_false (solid_scan_kept hs hflag f hpos hp hok) ?_
    rintro (h | ⟨h, -⟩ | ⟨h, -⟩)
    · exact hfirst h
    · exact hst h
    · exact h hok
  · rw [if_neg hp, if_neg hst] at hcase
    rw [solid_scan_stopped f hbegin (by rw [hcase]; exact hok)]
    unfold RecordFilter.Begins
    simp [hfirst, hst, hok]

theorem solid_scan_outside (hs : s.HasRecords Γ b acc) (f : Filter)
    (h : increase flag ≠ true ∨ acc = []) (fuel : Nat) (it : SolidBlockIterator) :
    (solidBlockIterator s flag (some f)).scan fuel it = .error .outOfBounds := by
  have hinfos : s.m_recordInfos.length = s.head.m_recordCount := hs.tables.infos
  have houtside : ∀ i, s.m_recordInfos.length ≤ i →
      tableAt s.m_recordInfos i = .error .outOfBounds := by
    intro i hi
    unfold tableAt
    rw [List.getElem?_eq_none hi]
  apply BlockIterator.scan_of_error
  show (SolidBlockIterator.begin memoryPages s flag (some f) it () >>= fun x => _) = _
  unfold SolidBlockIterator.begin SolidBlockIterator.filterCurrentSeekRecord
  by_cases hflag : increase flag = true
  · have hnil : acc = [] := h.resolve_left fun h => h hflag
    have hcount := hs.recordCount
    rw [hnil] at hcount
    simp only [hflag, if_true, houtside 0 (by rw [hinfos, hcount]; exact Nat.le_refl 0)]
    rfl
  · simp only [hflag, Bool.false_eq_true, if_false,
      houtside s.head.m_recordCount (Nat.le_of_eq hinfos)]
    rfl

end

end DBStream.Native
