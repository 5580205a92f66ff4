import DBStream.Native.DatabaseIterator
import Mathlib.Data.List.Sort

/-!
# Scanning a chain of solid blocks

A scan starts with `begin` on the first block or with a seek to a record, and calls `next`
until it does not return `OK`.  `rows` are the records of a block that should come, `taken`
those that do: when a scan enters a block whose first record is filtered out, the status is
still `ENDED` from the block before, `begin` leaves it, and `databaseIterator::next` goes on
to the block behind it.
-/

namespace DBStream.Native

/-! ## Records that pass -/

section

variable {σ : Type} (P : PageReader σ) (data : SolidBlock → Nat → List UInt8)
  (filter : Option Filter)

/-- Record `i` of the block passes the filter. -/
def passes (b : SolidBlock) (i : Nat) : Bool :=
  match filter with
  | none => true
  | some f =>
    match b.m_recordInfos[i]? with
    | none => false
    | some info =>
      match b.m_tableInfo[info.tableIndex]? with
      | none => false
      | some table =>
        f.filterByGeneralInfo table.tableId info.recordType info.logOffset info.timestamp &&
          (f.onlyNeedGeneralInfo || f.filterByRecord (data b i))

/-- The records of the block from number `n` on that pass. -/
def rows (b : SolidBlock) (n : Nat) : List Nat :=
  (List.range' n (b.head.m_recordCount - n)).filter (passes data filter b)

/-- The tables of the first page of a block: one info for each record, each with a table. -/
structure SolidBlock.Tables (b : SolidBlock) : Prop where
  infos : b.m_recordInfos.length = b.head.m_recordCount
  tables : ∀ info ∈ b.m_recordInfos, info.tableIndex < b.m_tableInfo.length
  count : b.head.m_recordCount < 2 ^ 32 - 1

/-- The pages of the blocks can be read: `value` finds the bytes `data` of every record. -/
structure PageReader.Reads (blocks : List SolidBlock) : Prop where
  value : ∀ b ∈ blocks, ∀ i < b.head.m_recordCount, ∀ s, ∃ s', P.value b i s = .ok (some (data b i), s')
  clear : ∀ b ∈ blocks, ∀ s, ∃ s', P.clear b s = .ok s'

end

section

variable {σ : Type} {P : PageReader σ} {data : SolidBlock → Nat → List UInt8}
  {filter : Option Filter} {b : SolidBlock} {blocks : List SolidBlock} {flag : Nat}
  {it : SolidBlockIterator} {s : σ}

theorem rows_step (data : SolidBlock → Nat → List UInt8) (filter : Option Filter) (b : SolidBlock)
    (n : Nat) :
    rows data filter b n = if n < b.head.m_recordCount then
      (if passes data filter b n then [n] else []) ++ rows data filter b (n + 1) else [] := by
  unfold rows
  by_cases hn : n < b.head.m_recordCount
  · rw [if_pos hn, show b.head.m_recordCount - n = (b.head.m_recordCount - (n + 1)) + 1 by omega,
      List.range'_succ, List.filter_cons]
    split <;> simp
  · rw [if_neg hn, show b.head.m_recordCount - n = 0 by omega]
    rfl

theorem rows_skip {n : Nat} (hn : n < b.head.m_recordCount) (hp : passes data filter b n ≠ true) :
    rows data filter b n = rows data filter b (n + 1) := by
  rw [rows_step, if_pos hn, if_neg hp]
  rfl

theorem rows_run (data : SolidBlock → Nat → List UInt8) (filter : Option Filter) (b : SolidBlock)
    (n k : Nat) (hk : n + k ≤ b.head.m_recordCount)
    (hall : ∀ i, n ≤ i → i < n + k → passes data filter b i = true) :
    rows data filter b n = List.range' n k ++ rows data filter b (n + k) := by
  induction k generalizing n with
  | zero => rfl
  | succ k ih =>
    rw [rows_step, if_pos (by omega), if_pos (hall n (Nat.le_refl _) (by omega)),
      ih (n + 1) (by omega) fun i hi hlt => hall i (by omega) (by omega), List.range'_succ,
      show n + 1 + k = n + (k + 1) by omega]
    rfl

theorem mem_rows {n i : Nat} :
    i ∈ rows data filter b n ↔ n ≤ i ∧ i < b.head.m_recordCount ∧ passes data filter b i = true := by
  unfold rows
  rw [List.mem_filter, List.mem_range'_1]
  constructor
  · rintro ⟨⟨hle, hlt⟩, hp⟩
    exact ⟨hle, by omega, hp⟩
  · rintro ⟨hle, hlt, hp⟩
    exact ⟨⟨hle, by omega⟩, hp⟩

theorem filterCurrentSeekRecord_eq (filter : Option Filter) (it : SolidBlockIterator)
    (hb : b ∈ blocks) (hP : P.Reads data blocks) (ht : b.Tables)
    (hi : it.m_seekedId < b.head.m_recordCount) (s : σ) :
    ∃ s', SolidBlockIterator.filterCurrentSeekRecord P b filter it s =
      .ok (if passes data filter b it.m_seekedId then 0 else 1, it, s') := by
  cases filter with
  | none => exact ⟨s, rfl⟩
  | some f =>
    have hlt : it.m_seekedId < b.m_recordInfos.length := by
      rw [ht.infos]
      exact hi
    have hinfo := List.getElem?_eq_getElem hlt
    have htable := List.getElem?_eq_getElem
      (ht.tables b.m_recordInfos[it.m_seekedId] (List.getElem_mem _))
    unfold SolidBlockIterator.filterCurrentSeekRecord passes
    simp only [tableAt, hinfo, htable, Exec.ok_bind]
    split
    · rename_i hgen
      simp only [hgen, Bool.true_and]
      split
      · rename_i honly
        exact ⟨s, by simp [honly]⟩
      · rename_i honly
        obtain ⟨s', hs'⟩ := hP.value b hb _ hi s
        refine ⟨s', ?_⟩
        rw [hs']
        simp [honly]
    · rename_i hgen
      exact ⟨s, by simp [hgen]⟩

/-! ## Inside a block -/

/-- The iterator stands on record `i`. -/
structure SolidBlockIterator.At (b : SolidBlock) (i : Nat) (it : SolidBlockIterator) : Prop where
  recordId : it.m_recordId = i
  seekedId : it.m_seekedId = i
  realRecordId : it.m_realRecordId = i + b.head.m_minRecordId

/-- Where `next` can leave an iterator: behind the last record, or on the first record from `n` on
    that passes. -/
inductive Stepped (data : SolidBlock → Nat → List UInt8) (filter : Option Filter) (b : SolidBlock)
    (n : Nat) (old : IterStatus) : IterStatus × SolidBlockIterator → Prop
  | ended {it : SolidBlockIterator} (hst : it.m_status = .ENDED)
      (hrows : rows data filter b n = []) : Stepped data filter b n old (.ENDED, it)
  | found {it : SolidBlockIterator} {i : Nat} (hat : it.At b i) (hst : it.m_status = old)
      (hi : i < b.head.m_recordCount)
      (hrows : rows data filter b n = i :: rows data filter b (i + 1)) :
      Stepped data filter b n old (.OK, it)

theorem nextLoop_stepped (hb : b ∈ blocks) (hP : P.Reads data blocks) (ht : b.Tables)
    (hflag : increase flag = true) {fuel n : Nat} (hn : (it.m_seekedId + 1) % 2 ^ 32 = n)
    (hst : it.m_status ≠ .INVALID) (hfuel : b.head.m_recordCount - n < fuel) (s : σ) :
    ∃ st it' s', SolidBlockIterator.nextLoop P b flag filter fuel it s = .ok (st, it', s') ∧
      Stepped data filter b n it.m_status (st, it') := by
  induction fuel generalizing it n s with
  | zero => omega
  | succ fuel ih =>
    unfold SolidBlockIterator.nextLoop SolidBlockIterator.advance
    simp only [hflag, if_true, hn]
    have hrows := rows_step data filter b n
    by_cases hlt : n < b.head.m_recordCount
    · obtain ⟨s₁, hs₁⟩ := filterCurrentSeekRecord_eq filter { it with m_seekedId := n } hb hP ht
        hlt s
      simp only [hlt, decide_true, if_true, hs₁, Exec.ok_bind]
      rw [if_pos hlt] at hrows
      by_cases hp : passes data filter b n = true
      · simp only [hp, if_true, List.singleton_append] at hrows ⊢
        exact ⟨_, _, s₁, rfl, .found ⟨rfl, rfl, rfl⟩ rfl hlt hrows⟩
      · -- one turn more
        have hcount := ht.count
        have hnext : (({ it with m_seekedId := n } : SolidBlockIterator).m_seekedId + 1) % 2 ^ 32 =
            n + 1 := Nat.mod_eq_of_lt (by show n + 1 < 2 ^ 32; omega)
        simp only [hp, Bool.false_eq_true, if_false, List.nil_append] at hrows ⊢
        obtain ⟨st, it', s', hloop, hstep⟩ := ih hnext hst (by omega) s₁
        refine ⟨st, it', s', ?_, ?_⟩
        · rw [if_neg (by decide), if_neg hst]
          exact hloop
        · cases hstep with
          | ended h₁ h₂ => exact .ended h₁ (by rw [hrows]; exact h₂)
          | found h₁ h₂ h₃ h₄ => exact .found h₁ h₂ h₃ (by rw [hrows]; exact h₄)
    · rw [if_neg hlt] at hrows
      simp only [hlt, decide_false, Bool.false_eq_true, if_false]
      exact ⟨_, _, s, rfl, .ended rfl hrows⟩

theorem next_stepped (filter : Option Filter) (it : SolidBlockIterator) (hb : b ∈ blocks)
    (hP : P.Reads data blocks) (ht : b.Tables) (hflag : increase flag = true) {i : Nat}
    (hat : it.m_seekedId = i)
    (hi : i ≤ b.head.m_recordCount) (hst : it.m_status ≠ .INVALID) (s : σ) :
    ∃ st it' s', SolidBlockIterator.next P b flag filter it s = .ok (st, it', s') ∧
      Stepped data filter b (i + 1) it.m_status (st, it') := by
  have hcount := ht.count
  exact nextLoop_stepped hb hP ht hflag (by rw [hat]; exact Nat.mod_eq_of_lt (by omega)) hst
    (by omega) s

/-- `next` of an iterator at record `i` whose status is `INVALID`: it gives up at the first record
    that does not pass. -/
theorem next_invalid (filter : Option Filter) (it : SolidBlockIterator) (hb : b ∈ blocks)
    (hP : P.Reads data blocks) (ht : b.Tables) (hflag : increase flag = true) {i : Nat}
    (hat : it.m_seekedId = i)
    (hi : i ≤ b.head.m_recordCount) (hst : it.m_status = .INVALID) (s : σ) :
    ∃ st it' s', SolidBlockIterator.next P b flag filter it s = .ok (st, it', s') ∧
      ((b.head.m_recordCount ≤ i + 1 ∧ st = .ENDED ∧ it'.m_status = .ENDED ∧
        it'.m_seekedId = i + 1) ∨
       (i + 1 < b.head.m_recordCount ∧ it'.m_status = .INVALID ∧ it'.m_seekedId = i + 1 ∧
        if passes data filter b (i + 1) then st = .OK ∧ it'.At b (i + 1) else st = .INVALID)) := by
  have hcount := ht.count
  have hn : (i + 1) % 2 ^ 32 = i + 1 := Nat.mod_eq_of_lt (by omega)
  unfold SolidBlockIterator.next SolidBlockIterator.nextLoop SolidBlockIterator.advance
  simp only [hflag, if_true, hat, hn]
  by_cases hlt : i + 1 < b.head.m_recordCount
  · obtain ⟨s₁, hs₁⟩ := filterCurrentSeekRecord_eq filter { it with m_seekedId := i + 1 } hb hP ht
      hlt s
    simp only [hlt, decide_true, if_true, hs₁, Exec.ok_bind]
    by_cases hp : passes data filter b (i + 1) = true
    · simp only [hp, if_true]
      exact ⟨_, _, s₁, rfl, .inr ⟨trivial, hst, rfl, rfl, rfl, rfl, rfl⟩⟩
    · simp only [hp, Bool.false_eq_true, if_false]
      rw [if_neg (by decide), if_pos hst]
      exact ⟨_, _, s₁, rfl, .inr ⟨trivial, hst, rfl, rfl⟩⟩
  · simp only [hlt, decide_false, Bool.false_eq_true, if_false]
    exact ⟨_, _, s, rfl, .inl ⟨by omega, rfl, rfl, rfl⟩⟩

/-- Where `begin` puts an iterator of a block that has records. -/
theorem begin_eq (filter : Option Filter) (it : SolidBlockIterator) (hb : b ∈ blocks)
    (hP : P.Reads data blocks) (ht : b.Tables) (hflag : increase flag = true)
    (hpos : 0 < b.head.m_recordCount) (s : σ) :
    ∃ it' s', SolidBlockIterator.begin P b flag filter it s = .ok (it', s') ∧
      if passes data filter b 0 then it'.At b 0 ∧ it'.m_status = .OK
      else if it.m_status = .INVALID then
        it'.m_seekedId = 1 ∧
          if b.head.m_recordCount = 1 then it'.m_status = .ENDED else
            if passes data filter b 1 then it'.At b 1 ∧ it'.m_status = .OK
            else it'.m_status = .INVALID
      else it'.m_status = it.m_status := by
  obtain ⟨s₁, hs₁⟩ := filterCurrentSeekRecord_eq filter { it with
    m_recordId := 0
    m_seekedId := 0
    m_realRecordId := b.head.m_minRecordId } hb hP ht hpos s
  unfold SolidBlockIterator.begin
  simp only [hflag, if_true, hs₁, Exec.ok_bind]
  by_cases hp : passes data filter b 0 = true
  · simp only [hp, if_true]
    refine ⟨_, s₁, rfl, ⟨rfl, rfl, ?_⟩, rfl⟩
    show b.head.m_minRecordId = 0 + b.head.m_minRecordId
    omega
  simp only [hp, Bool.false_eq_true, if_false]
  by_cases hst : it.m_status = .INVALID
  swap
  · simp only [hst, if_false]
    exact ⟨_, s₁, rfl, rfl⟩
  -- only the constructor comes here
  simp only [hst, if_true]
  obtain ⟨st, it', s', hnext, hcase⟩ := next_invalid filter { it with
    m_recordId := 0
    m_seekedId := 0
    m_realRecordId := b.head.m_minRecordId } hb hP ht hflag (i := 0) rfl (Nat.zero_le _) hst s₁
  simp only [hst] at hnext
  simp only [hnext, Exec.ok_bind]
  refine ⟨_, s', rfl, ?_⟩
  rcases hcase with ⟨hend, rfl, -, hseek⟩ | ⟨hmore, -, hseek, hcond⟩
  · refine ⟨hseek, ?_⟩
    rw [if_pos (by omega)]
  · refine ⟨hseek, ?_⟩
    rw [if_neg (by omega)]
    split at hcond
    · rename_i hp₁
      rw [if_pos hp₁]
      exact ⟨⟨hcond.2.recordId, hcond.2.seekedId, hcond.2.realRecordId⟩, hcond.1⟩
    · rename_i hp₁
      rw [if_neg hp₁]
      exact hcond

theorem seekTo_eq (filter : Option Filter) (it : SolidBlockIterator) (hb : b ∈ blocks)
    (hP : P.Reads data blocks) (ht : b.Tables) (hflag : increase flag = true) {n : Nat}
    (hn : n < b.head.m_recordCount) (hst : it.m_status ≠ .INVALID) (s : σ) :
    ∃ ok it' s', SolidBlockIterator.seekTo P b flag filter n it s = .ok (ok, it', s') ∧
      ((ok = false ∧ rows data filter b n = []) ∨
       (ok = true ∧ it'.m_status = .OK ∧ ∃ i, it'.At b i ∧ i < b.head.m_recordCount ∧
        rows data filter b n = i :: rows data filter b (i + 1))) := by
  obtain ⟨s₁, hs₁⟩ := filterCurrentSeekRecord_eq filter { it with
    m_recordId := n
    m_seekedId := n
    m_realRecordId := n + b.head.m_minRecordId } hb hP ht hn s
  have hrows := rows_step data filter b n
  rw [if_pos hn] at hrows
  unfold SolidBlockIterator.seekTo
  simp only [hs₁, Exec.ok_bind]
  by_cases hp : passes data filter b n = true
  · simp only [hp, if_true, List.singleton_append] at hrows ⊢
    exact ⟨true, _, s₁, rfl, .inr ⟨rfl, rfl, n, ⟨rfl, rfl, rfl⟩, hn, hrows⟩⟩
  simp only [hp, Bool.false_eq_true, if_false, List.nil_append] at hrows ⊢
  rw [if_pos (by decide), if_neg hst, hrows]
  obtain ⟨st, it', s', hnext, hstep⟩ := next_stepped filter { it with
    m_recordId := n
    m_seekedId := n
    m_realRecordId := n + b.head.m_minRecordId } hb hP ht hflag (i := n) rfl (by omega) hst s₁
  simp only [hnext, Exec.ok_bind]
  cases hstep with
  | ended _ hnone => exact ⟨false, _, s', rfl, .inl ⟨rfl, hnone⟩⟩
  | found hat _ hi hsome =>
    exact ⟨true, _, s', rfl, .inr ⟨rfl, rfl, _,
      ⟨hat.recordId, hat.seekedId, hat.realRecordId⟩, hi, hsome⟩⟩

end

/-! ## From block to block -/

section

variable {σ : Type} (P : PageReader σ) (data : SolidBlock → Nat → List UInt8) (flag : Nat)
  (filter : Option Filter)

/-- `key` of the iterator: the id of the record it stands on. -/
def DatabaseIterator.key (d : DatabaseIterator) : Nat := d.m_blockIter.m_realRecordId

/-- The records `next` comes to until it stops returning `OK`. -/
def drain : Nat → DatabaseIterator → σ → Exec (List Nat × σ)
  | 0, _, _ => .error .endless
  | fuel + 1, d, s => do
    let (status, d, s) ← DatabaseIterator.next P flag filter d s
    if status = .OK then
      let (rest, s) ← drain fuel d s
      return (d.key :: rest, s)
    else return ([], s)

/-- The ids of records of a block, from their numbers. -/
def recordIds (b : SolidBlock) (is : List Nat) : List Nat := is.map (· + b.head.m_minRecordId)

/-- The ids of the records of a chain that pass, in order. -/
def chainRows (blocks : List SolidBlock) : List Nat :=
  blocks.flatMap fun b => recordIds b (rows data filter b 0)

/-- The records a scan takes from a block it comes to from another. -/
def taken (b : SolidBlock) : Exec (List Nat) :=
  if b.head.m_recordCount = 0 then
    -- the status is `OK` without a look at the block
    if filter.isNone then .ok [0] else .error .outOfBounds
  else .ok (if passes data filter b 0 then rows data filter b 0 else [])

/-- The records a scan takes from the blocks ahead. -/
def takenAll : List SolidBlock → Exec (List Nat)
  | [] => .ok []
  | b :: ahead => do
    let is ← taken data filter b
    (takenAll ahead).map (recordIds b is ++ ·)

/-- One turn of `drain`, from the answer of `next` on. -/
def drainAfter (fuel : Nat) (x : IterStatus × DatabaseIterator × σ) : Exec (List Nat × σ) :=
  if x.1 = .OK then do
    let (rest, s) ← drain P flag filter fuel x.2.1 x.2.2
    return (x.2.1.key :: rest, s)
  else return ([], x.2.2)

end

section

variable {σ : Type} {P : PageReader σ} {data : SolidBlock → Nat → List UInt8}
  {filter : Option Filter} {b : SolidBlock} {blocks ahead : List SolidBlock} {flag : Nat}
  {it : SolidBlockIterator} {s : σ}

theorem drain_succ (fuel : Nat) (d : DatabaseIterator) (s : σ) :
    drain P flag filter (fuel + 1) d s =
      DatabaseIterator.next P flag filter d s >>= drainAfter P flag filter fuel := rfl

theorem drain_mono {fuel : Nat} {d : DatabaseIterator} {x : List Nat × σ}
    (h : drain P flag filter fuel d s = .ok x) (more : Nat) :
    drain P flag filter (fuel + more) d s = .ok x := by
  induction fuel generalizing d s x with
  | zero => cases h
  | succ fuel ih =>
    rw [drain_succ] at h
    obtain ⟨y, hy, h⟩ := Exec.of_bind h
    rw [show fuel + 1 + more = fuel + more + 1 by omega, drain_succ, hy]
    show drainAfter P flag filter (fuel + more) y = _
    unfold drainAfter at h ⊢
    split
    · rename_i hok
      rw [if_pos hok] at h
      obtain ⟨z, hz, hret⟩ := Exec.of_bind h
      rw [ih hz]
      exact hret
    · rename_i hno
      rw [if_neg hno] at h
      exact h

/-- `drain` settles on `l`: it answers `l` with enough fuel. -/
def Drains (P : PageReader σ) (flag : Nat) (filter : Option Filter) (d : DatabaseIterator) (s : σ)
    (l : Exec (List Nat)) : Prop :=
  ∃ N, ∀ fuel, N ≤ fuel → (drain P flag filter fuel d s).map Prod.fst = l

theorem Drains.iff {d : DatabaseIterator} {l : Exec (List Nat)} (h : Drains P flag filter d s l)
    (g : List Nat → List Nat) (ids : List Nat) :
    (∃ fuel, ((drain P flag filter fuel d s).map Prod.fst).map g = .ok ids) ↔ l.map g = .ok ids := by
  obtain ⟨N, hN⟩ := h
  constructor
  · rintro ⟨fuel, hfuel⟩
    cases hdrain : drain P flag filter fuel d s with
    | error e =>
      rw [hdrain] at hfuel
      cases hfuel
    | ok x =>
      rw [← hN (fuel + N) (by omega), drain_mono hdrain]
      rw [hdrain] at hfuel
      exact hfuel
  · intro hl
    refine ⟨N, ?_⟩
    rw [hN N (Nat.le_refl _)]
    exact hl

/-- The blocks of a chain can be read and have their tables. -/
structure Sound (P : PageReader σ) (data : SolidBlock → Nat → List UInt8)
    (blocks : List SolidBlock) : Prop where
  reads : P.Reads data blocks
  tables : ∀ b ∈ blocks, b.Tables

/-- What the iterator of the next block gives, or that it reads behind its records. -/
theorem resetBlock_eq (filter : Option Filter) (hS : Sound P data blocks) {old : SolidBlock}
    (hold : old ∈ blocks)
    (hb : b ∈ blocks) (hflag : increase flag = true) (hst : it.m_status = .ENDED) (s : σ) :
    (taken data filter b = .error .outOfBounds ∧
      SolidBlockIterator.resetBlock P b flag filter old it s = .error .outOfBounds) ∨
    ∃ it' s', SolidBlockIterator.resetBlock P b flag filter old it s = .ok (it', s') ∧
      ((it'.m_status = .ENDED ∧ taken data filter b = .ok []) ∨
       (it'.m_status = .OK ∧ it'.At b 0 ∧
        taken data filter b = .ok (0 :: rows data filter b 1))) := by
  obtain ⟨s₁, hs₁⟩ := hS.reads.clear old hold s
  unfold SolidBlockIterator.resetBlock
  rw [hs₁, Exec.ok_bind]
  unfold taken
  by_cases hzero : b.head.m_recordCount = 0
  · rw [if_pos hzero]
    cases filter with
    | none =>
      right
      have hnone : rows data none b 1 = [] := by
        rw [rows_step, if_neg (by omega)]
      refine ⟨_, s₁, rfl, .inr ⟨rfl, ?_, ?_⟩⟩
      · simp only [hflag, if_true]
        refine ⟨rfl, rfl, ?_⟩
        show b.head.m_minRecordId = 0 + b.head.m_minRecordId
        omega
      · rw [hnone]
        rfl
    | some f =>
      left
      refine ⟨rfl, ?_⟩
      have hinfo : b.m_recordInfos[0]? = none := by
        rw [List.getElem?_eq_none]
        rw [(hS.tables b hb).infos]
        omega
      unfold SolidBlockIterator.begin SolidBlockIterator.filterCurrentSeekRecord
      simp only [hflag, if_true, tableAt, hinfo]
      rfl
  · right
    obtain ⟨it', s', hbegin, hcase⟩ := begin_eq filter it hb hS.reads (hS.tables b hb) hflag
      (by omega) s₁
    refine ⟨it', s', hbegin, ?_⟩
    rw [if_neg hzero]
    by_cases hp : passes data filter b 0 = true
    · rw [if_pos hp] at hcase ⊢
      rw [rows_step, if_pos (by omega), if_pos hp]
      exact .inr ⟨hcase.2, hcase.1, rfl⟩
    · rw [if_neg hp] at hcase ⊢
      rw [if_neg (by rw [hst]; decide), hst] at hcase
      exact .inl ⟨hcase, rfl⟩

theorem drainAfter_ok (fuel : Nat) (d : DatabaseIterator) (s : σ) :
    (drainAfter P flag filter fuel (.OK, d, s)).map Prod.fst =
      ((drain P flag filter fuel d s).map Prod.fst).map (d.key :: ·) := by
  unfold drainAfter
  cases drain P flag filter fuel d s <;> rfl

/-- What follows when a block has ended, with the iterator's status `ENDED`. -/
def DrainsAhead (P : PageReader σ) (flag : Nat) (filter : Option Filter)
    (data : SolidBlock → Nat → List UInt8) (blocks ahead : List SolidBlock) : Prop :=
  ∀ current ∈ blocks, ∀ it : SolidBlockIterator, it.m_status = .ENDED → ∀ s, ∃ N, ∀ fuel, N ≤ fuel →
    (DatabaseIterator.nextBlock P flag filter current it ahead s >>=
      drainAfter P flag filter fuel).map Prod.fst = takenAll data filter ahead

theorem map_map (x : Exec (List Nat)) (f g : List Nat → List Nat) :
    (x.map f).map g = x.map fun l => g (f l) := by
  cases x <;> rfl

theorem map_nil_append (x : Exec (List Nat)) : x.map ([] ++ ·) = x := by
  cases x <;> rfl

theorem Drains.found {it' : SolidBlockIterator} {s' : σ} {l : Exec (List Nat)} {i : Nat}
    (hnext : SolidBlockIterator.next P b flag filter it s = .ok (.OK, it', s'))
    (hat : it'.At b i) (h : Drains P flag filter ⟨b, ahead, it'⟩ s' l) :
    Drains P flag filter ⟨b, ahead, it⟩ s (l.map ((i + b.head.m_minRecordId) :: ·)) := by
  obtain ⟨N, hN⟩ := h
  refine ⟨N + 1, ?_⟩
  intro fuel hfuel
  obtain ⟨fuel, rfl⟩ : ∃ n, fuel = n + 1 := ⟨fuel - 1, by omega⟩
  have hdb : DatabaseIterator.next P flag filter ⟨b, ahead, it⟩ s =
      .ok (.OK, ⟨b, ahead, it'⟩, s') := by
    unfold DatabaseIterator.next
    simp only [hnext, Exec.ok_bind]
    rfl
  have hkey : (DatabaseIterator.mk b ahead it').key = i + b.head.m_minRecordId := hat.realRecordId
  rw [drain_succ, hdb, Exec.ok_bind, drainAfter_ok, hN fuel (by omega), hkey]

theorem Drains.ended {it' : SolidBlockIterator} {s' : σ} (hb : b ∈ blocks)
    (hahead : DrainsAhead P flag filter data blocks ahead)
    (hnext : SolidBlockIterator.next P b flag filter it s = .ok (.ENDED, it', s'))
    (hst : it'.m_status = .ENDED) :
    Drains P flag filter ⟨b, ahead, it⟩ s (takenAll data filter ahead) := by
  obtain ⟨N, hN⟩ := hahead b hb it' hst s'
  refine ⟨N + 1, ?_⟩
  intro fuel hfuel
  obtain ⟨fuel, rfl⟩ : ∃ n, fuel = n + 1 := ⟨fuel - 1, by omega⟩
  have hdb : DatabaseIterator.next P flag filter ⟨b, ahead, it⟩ s =
      DatabaseIterator.nextBlock P flag filter b it' ahead s' := by
    unfold DatabaseIterator.next
    simp [hnext]
  rw [drain_succ, hdb, hN fuel (by omega)]

theorem Drains.invalid {it' : SolidBlockIterator} {s' : σ}
    (hnext : SolidBlockIterator.next P b flag filter it s = .ok (.INVALID, it', s')) :
    Drains P flag filter ⟨b, ahead, it⟩ s (.ok []) := by
  refine ⟨1, ?_⟩
  intro fuel hfuel
  obtain ⟨fuel, rfl⟩ : ∃ n, fuel = n + 1 := ⟨fuel - 1, by omega⟩
  have hdb : DatabaseIterator.next P flag filter ⟨b, ahead, it⟩ s =
      .ok (.INVALID, ⟨b, ahead, it'⟩, s') := by
    unfold DatabaseIterator.next
    simp only [hnext, Exec.ok_bind]
    rfl
  rw [drain_succ, hdb]
  rfl

/-- From record `i` on, unless the status is `INVALID`: the records that pass behind it, and the
    blocks ahead. -/
theorem drains_from (hS : Sound P data blocks) (hb : b ∈ blocks) (hflag : increase flag = true)
    (hahead : DrainsAhead P flag filter data blocks ahead) {i : Nat}
    (hi : i ≤ b.head.m_recordCount) (hat : it.m_seekedId = i) (hst : it.m_status ≠ .INVALID)
    (s : σ) :
    Drains P flag filter ⟨b, ahead, it⟩ s
      ((takenAll data filter ahead).map (recordIds b (rows data filter b (i + 1)) ++ ·)) := by
  -- by induction on the records left
  induction hk : b.head.m_recordCount - i using Nat.strong_induction_on generalizing i it s with
  | h k ih =>
    obtain ⟨st, it', s', hnext, hstep⟩ := next_stepped filter it hb hS.reads (hS.tables b hb) hflag
      hat hi hst s
    cases hstep with
    | ended hend hrows =>
      have hdrains := Drains.ended hb hahead hnext hend
      rw [hrows]
      rw [← map_nil_append (takenAll data filter ahead)] at hdrains
      exact hdrains
    | @found _ j hatj hstj hj hrows =>
      have hmem : j ∈ rows data filter b (i + 1) := by
        rw [hrows]
        exact List.mem_cons_self
      have hij := (mem_rows.mp hmem).1
      have hrest := ih (b.head.m_recordCount - j) (by omega) (Nat.le_of_lt hj) hatj.seekedId
        (by rw [hstj]; exact hst) s' rfl
      have hdrains := Drains.found hnext hatj hrest
      rw [map_map] at hdrains
      rw [hrows]
      exact hdrains

/-- Behind a block that is read to its end come the records of the blocks ahead. -/
theorem drainsAhead (hS : Sound P data blocks) (hflag : increase flag = true)
    (hsub : ∀ b ∈ ahead, b ∈ blocks) : DrainsAhead P flag filter data blocks ahead := by
  induction ahead with
  | nil =>
    intro current hcurrent it hst s
    refine ⟨0, ?_⟩
    intro fuel hfuel
    unfold DatabaseIterator.nextBlock
    simp only [hflag, if_true]
    rfl
  | cons b ahead ih =>
    have hb := hsub b List.mem_cons_self
    have hahead := ih fun b' hb' => hsub b' (List.mem_cons_of_mem _ hb')
    intro current hcurrent it hst s
    rcases resetBlock_eq filter hS hcurrent hb hflag hst s with
      ⟨htaken, hreset⟩ | ⟨it', s', hreset, hcase⟩
    · refine ⟨0, ?_⟩
      intro fuel hfuel
      unfold DatabaseIterator.nextBlock takenAll
      rw [hreset, htaken]
      rfl
    rcases hcase with ⟨hend, htaken⟩ | ⟨hok, hat, htaken⟩
    · -- nothing of the block is taken
      obtain ⟨N, hN⟩ := hahead b hb it' hend s'
      refine ⟨N, ?_⟩
      intro fuel hfuel
      unfold DatabaseIterator.nextBlock takenAll
      rw [hreset, htaken]
      simp only [Exec.ok_bind, hend, if_true]
      rw [hN fuel hfuel]
      exact (map_nil_append _).symm
    · obtain ⟨N, hN⟩ := drains_from hS hb hflag hahead (Nat.zero_le _) hat.seekedId
        (by rw [hok]; decide) s'
      refine ⟨N, ?_⟩
      intro fuel hfuel
      have hkey : (DatabaseIterator.mk b ahead it').key = 0 + b.head.m_minRecordId :=
        hat.realRecordId
      unfold DatabaseIterator.nextBlock takenAll
      rw [hreset, htaken]
      simp only [Exec.ok_bind, hok]
      show Except.map Prod.fst (drainAfter P flag filter fuel (.OK, ⟨b, ahead, it'⟩, s')) = _
      rw [drainAfter_ok, hN fuel hfuel, hkey]
      cases takenAll data filter ahead <;> rfl

theorem drains_invalid_through (hS : Sound P data blocks) (hb : b ∈ blocks)
    (hflag : increase flag = true) (hahead : DrainsAhead P flag filter data blocks ahead) {i : Nat}
    (hi : i ≤ b.head.m_recordCount) (hat : it.m_seekedId = i) (hst : it.m_status = .INVALID)
    (hall : ∀ j, i < j → j < b.head.m_recordCount → passes data filter b j = true) (s : σ) :
    Drains P flag filter ⟨b, ahead, it⟩ s
      ((takenAll data filter ahead).map (recordIds b (rows data filter b (i + 1)) ++ ·)) := by
  induction hk : b.head.m_recordCount - i generalizing i it s with
  | zero =>
    obtain ⟨st, it', s', hnext, hcase⟩ := next_invalid filter it hb hS.reads (hS.tables b hb) hflag
      hat hi hst s
    obtain ⟨-, rfl, hend, -⟩ | ⟨hmore, -⟩ := hcase
    · have hdrains := Drains.ended hb hahead hnext hend
      rw [← map_nil_append (takenAll data filter ahead)] at hdrains
      rw [rows_step, if_neg (by omega)]
      exact hdrains
    · omega
  | succ k ih =>
    obtain ⟨st, it', s', hnext, hcase⟩ := next_invalid filter it hb hS.reads (hS.tables b hb) hflag
      hat hi hst s
    rw [rows_step]
    obtain ⟨hend, rfl, hended, -⟩ | ⟨hmore, hst', hseek, hcond⟩ := hcase
    · have hdrains := Drains.ended hb hahead hnext hended
      rw [← map_nil_append (takenAll data filter ahead)] at hdrains
      rw [if_neg (by omega)]
      exact hdrains
    · have hp := hall (i + 1) (by omega) hmore
      rw [if_pos hp] at hcond
      rw [if_pos hmore, if_pos hp]
      have hrest := ih (by omega) hseek hst' (fun j hj hlt => hall j (by omega) hlt) s' (by omega)
      obtain ⟨rfl, hati⟩ := hcond
      have hdrains := Drains.found hnext hati hrest
      rw [map_map] at hdrains
      exact hdrains

/-- From record `i` on with the status `INVALID`, if record `j` is the first behind it that does
    not pass. -/
theorem drains_invalid_until (hS : Sound P data blocks) (hb : b ∈ blocks)
    (hflag : increase flag = true) {i k : Nat} (hk : i + 1 + k < b.head.m_recordCount)
    (hat : it.m_seekedId = i) (hst : it.m_status = .INVALID)
    (hall : ∀ j, i < j → j < i + 1 + k → passes data filter b j = true)
    (hstop : passes data filter b (i + 1 + k) ≠ true) (s : σ) :
    Drains P flag filter ⟨b, ahead, it⟩ s (.ok (recordIds b (List.range' (i + 1) k))) := by
  induction k generalizing i it s with
  | zero =>
    obtain ⟨st, it', s', hnext, hcase⟩ := next_invalid filter it hb hS.reads (hS.tables b hb) hflag
      hat (by omega) hst s
    obtain ⟨hend, -⟩ | ⟨hmore, -, -, hcond⟩ := hcase
    · omega
    · rw [if_neg hstop] at hcond
      subst hcond
      exact Drains.invalid hnext
  | succ k ih =>
    obtain ⟨st, it', s', hnext, hcase⟩ := next_invalid filter it hb hS.reads (hS.tables b hb) hflag
      hat (by omega) hst s
    obtain ⟨hend, -⟩ | ⟨hmore, hst', hseek, hcond⟩ := hcase
    · omega
    · rw [if_pos (hall (i + 1) (by omega) (by omega))] at hcond
      obtain ⟨rfl, hati⟩ := hcond
      have hrest := ih (by omega) hseek hst' (fun j hj hlt => hall j (by omega) (by omega))
        (by rw [show i + 1 + 1 + k = i + 1 + (k + 1) by omega]; exact hstop) s'
      have hdrains := Drains.found hnext hati hrest
      exact hdrains

/-! ## What is taken and what should come -/

/-- A block that a scan can enter from another without losing a record. -/
def Enterable (data : SolidBlock → Nat → List UInt8) (filter : Option Filter) (b : SolidBlock) :
    Prop :=
  0 < b.head.m_recordCount ∧ (passes data filter b 0 = true ∨ rows data filter b 0 = [])

theorem taken_cases {is : List Nat} (h : taken data filter b = .ok is) :
    (Enterable data filter b ∧ is = rows data filter b 0) ∨
    (filter ≠ none ∧ is = [] ∧ rows data filter b 0 ≠ []) ∨
    (filter = none ∧ is = [0] ∧ rows data filter b 0 = []) := by
  unfold taken at h
  by_cases hzero : b.head.m_recordCount = 0
  · rw [if_pos hzero] at h
    cases filter with
    | none =>
      cases h
      right; right
      refine ⟨rfl, rfl, ?_⟩
      rw [rows_step, if_neg (by omega)]
    | some f => cases h
  · rw [if_neg hzero] at h
    cases h
    by_cases hp : passes data filter b 0 = true
    · rw [if_pos hp]
      exact .inl ⟨⟨by omega, .inl hp⟩, rfl⟩
    rw [if_neg hp]
    by_cases hrows : rows data filter b 0 = []
    · exact .inl ⟨⟨by omega, .inr hrows⟩, hrows.symm⟩
    · refine .inr (.inl ⟨?_, rfl, hrows⟩)
      rintro rfl
      exact hp rfl

private theorem taken_of_enterable (h : Enterable data filter b) :
    taken data filter b = .ok (rows data filter b 0) := by
  unfold taken
  rw [if_neg (by have := h.1; omega)]
  rcases h.2 with hp | hrows
  · rw [if_pos hp]
  · rw [hrows]
    split <;> rfl

theorem length_recordIds (b : SolidBlock) (is : List Nat) : (recordIds b is).length = is.length :=
  List.length_map _

theorem takenAll_length {l : List Nat} (h : takenAll data filter ahead = .ok l) :
    (filter ≠ none → l.length ≤ (chainRows data filter ahead).length) ∧
    (filter = none → (chainRows data filter ahead).length ≤ l.length) := by
  induction ahead generalizing l with
  | nil =>
    cases h
    exact ⟨fun _ => Nat.le_refl _, fun _ => Nat.le_refl _⟩
  | cons b ahead ih =>
    obtain ⟨is, his, h⟩ := Exec.of_bind h
    cases hrest : takenAll data filter ahead with
    | error e =>
      rw [hrest] at h
      cases h
    | ok rest =>
      rw [hrest] at h
      cases h
      have hchain : (chainRows data filter (b :: ahead)).length =
          (rows data filter b 0).length + (chainRows data filter ahead).length := by
        unfold chainRows
        rw [List.flatMap_cons, List.length_append, length_recordIds]
      rw [List.length_append, length_recordIds, hchain]
      obtain ⟨hle, hge⟩ := ih hrest
      obtain ⟨-, rfl⟩ | ⟨hf, rfl, -⟩ | ⟨hf, rfl, hnone⟩ := taken_cases his
      · exact ⟨fun hf => Nat.add_le_add_left (hle hf) _, fun hf => Nat.add_le_add_left (hge hf) _⟩
      · refine ⟨fun hf => ?_, fun hf' => absurd hf' hf⟩
        have := hle hf
        simp only [List.length_nil]
        omega
      · refine ⟨fun hf' => absurd hf hf', fun hf => ?_⟩
        have := hge hf
        rw [hnone]
        simp only [List.length_nil, List.length_singleton]
        omega

/-- All records of the blocks ahead are given when each of them can be entered. -/
theorem takenAll_eq_iff :
    takenAll data filter ahead = .ok (chainRows data filter ahead) ↔
      ∀ b ∈ ahead, Enterable data filter b := by
  induction ahead with
  | nil => exact ⟨fun _ b hb => (nomatch hb), fun _ => rfl⟩
  | cons b ahead ih =>
    constructor
    · intro h
      obtain ⟨is, his, h⟩ := Exec.of_bind h
      cases hrest : takenAll data filter ahead with
      | error e =>
        rw [hrest] at h
        cases h
      | ok rest =>
        rw [hrest] at h
        have heq : recordIds b is ++ rest =
            recordIds b (rows data filter b 0) ++ chainRows data filter ahead := by
          injection h
        have hlen := congrArg List.length heq
        rw [List.length_append, List.length_append, length_recordIds, length_recordIds] at hlen
        obtain ⟨hle, hge⟩ := takenAll_length hrest
        obtain ⟨henter, rfl⟩ | ⟨hf, rfl, hrows⟩ | ⟨hf, rfl, hnone⟩ := taken_cases his
        · have hrest' := List.append_cancel_left heq
          rw [hrest'] at hrest
          intro b' hb'
          rcases List.mem_cons.mp hb' with rfl | hb'
          · exact henter
          · exact ih.mp hrest b' hb'
        · have hpos := List.length_pos_of_ne_nil hrows
          have := hle hf
          rw [List.length_nil] at hlen
          omega
        · have := hge hf
          rw [hnone, List.length_nil, List.length_singleton] at hlen
          omega
    · intro h
      have hrest := ih.mpr fun b' hb' => h b' (List.mem_cons_of_mem _ hb')
      unfold takenAll
      rw [taken_of_enterable (h b List.mem_cons_self), hrest]
      rfl

end

/-! ## Scans -/

/-- How a scan starts: with `begin` on the first block, or with a seek to a record. -/
inductive ScanStart where
  | begin
  | seek (recordId : Nat)

section

variable {σ : Type} (P : PageReader σ) (data : SolidBlock → Nat → List UInt8) (flag : Nat)
  (filter : Option Filter) (firstBlockId : Nat) (blocks : List SolidBlock)

/-- A scan of a chain.  After `begin` the iterator stands on a record if its status is `OK`. -/
def scan (start : ScanStart) (fuel : Nat) (s : σ) : Exec (List Nat) :=
  match start with
  | .begin =>
    match blocks with
    | [] => .ok []
    | b :: ahead => do
      let (d, s) ← DatabaseIterator.begin P flag filter b ahead s
      let (rest, _) ← drain P flag filter fuel d s
      return if d.m_blockIter.m_status = .OK then d.key :: rest else rest
  | .seek recordId => do
    let (d, s) ← DatabaseIterator.seek P flag filter firstBlockId blocks recordId s
    match d with
    | none => return []
    | some d =>
      let (rest, _) ← drain P flag filter fuel d s
      return d.key :: rest

/-- The ids a scan should give: all that pass, a seek those from its record on. -/
def scanRows (start : ScanStart) : List Nat :=
  match start with
  | .begin => chainRows data filter blocks
  | .seek recordId => (chainRows data filter blocks).filter (recordId ≤ ·)

/-- The records a scan should come to: all that pass, a seek those from its record on. -/
def Wanted (start : ScanStart) (r : Nat) : Prop :=
  (match start with
    | .begin => 0
    | .seek recordId => recordId) ≤ r ∧
  ∃ b ∈ blocks, ∃ i < b.head.m_recordCount, passes data filter b i = true ∧
    r = i + b.head.m_minRecordId

/-- The record ids go up from block to block, and no block at 0 is empty: its last id would wrap. -/
structure Ascending : Prop where
  pos : ∀ b ∈ blocks, 1 ≤ b.head.m_minRecordId + b.head.m_recordCount
  bound : ∀ b ∈ blocks, b.head.m_minRecordId + b.head.m_recordCount < 2 ^ 64
  blocks : blocks.Pairwise fun b b' =>
    b.head.m_minRecordId + b.head.m_recordCount ≤ b'.head.m_minRecordId

/-- There is a block to begin with, or the record to seek. -/
def ScanStart.In (start : ScanStart) : Prop :=
  match start with
  | .begin => blocks ≠ []
  | .seek recordId => ∃ b ∈ blocks, b.head.m_minRecordId ≤ recordId ∧
      recordId < b.head.m_minRecordId + b.head.m_recordCount

/-- `begin` gets over the records of the first block that do not pass: one of the first two passes,
    or all behind them do. -/
def Startable (b : SolidBlock) : Prop :=
  0 < b.head.m_recordCount ∧
    (passes data filter b 0 = true ∨ passes data filter b 1 = true ∨
      ∀ i, 2 ≤ i → i < b.head.m_recordCount → passes data filter b i = true)

/-- When a scan gives every record that passes: it can start in its first block and enter the others
    (`begin` on a block that is not `Startable` still gives the run of records from number 2 on, a
    seek to where nothing passes any more still gives nothing). -/
def Unbroken (start : ScanStart) : Prop :=
  match start with
  | .begin => ∃ b ahead, blocks = b :: ahead ∧
      ((Startable data filter b ∧ ∀ b' ∈ ahead, Enterable data filter b') ∨
       ((∃ j, 2 ≤ j ∧ j < b.head.m_recordCount ∧
          rows data filter b 0 = List.range' 2 (j - 2)) ∧ chainRows data filter ahead = []))
  | .seek recordId => ∃ before b ahead, blocks = before ++ b :: ahead ∧
      b.head.m_minRecordId ≤ recordId ∧
      recordId < b.head.m_minRecordId + b.head.m_recordCount ∧
      if rows data filter b (recordId - b.head.m_minRecordId) = [] then
        chainRows data filter ahead = []
      else ∀ b' ∈ ahead, Enterable data filter b'

end

section

variable {σ : Type} {P : PageReader σ} {data : SolidBlock → Nat → List UInt8}
  {filter : Option Filter} {b : SolidBlock} {blocks before ahead : List SolidBlock} {flag : Nat}
  {it : SolidBlockIterator} {s : σ} {firstBlockId recordId : Nat}

theorem map_append_eq_iff (is : List Nat) :
    (takenAll data filter ahead).map (is ++ ·) = .ok (is ++ chainRows data filter ahead) ↔
      ∀ b' ∈ ahead, Enterable data filter b' := by
  rw [← takenAll_eq_iff]
  cases takenAll data filter ahead with
  | error e => exact ⟨fun h => (nomatch h), fun h => (nomatch h)⟩
  | ok l =>
    constructor
    · intro h
      injection h with h
      rw [List.append_cancel_left h]
    · intro h
      cases h
      rfl

theorem scan_mono {start : ScanStart} {fuel : Nat} {ids : List Nat}
    (h : scan P flag filter firstBlockId blocks start fuel s = .ok ids) (more : Nat) :
    scan P flag filter firstBlockId blocks start (fuel + more) s = .ok ids := by
  cases start with
  | begin =>
    cases blocks with
    | nil => exact h
    | cons b ahead =>
      obtain ⟨⟨d, s'⟩, hd, h⟩ := Exec.of_bind h
      obtain ⟨x, hx, h⟩ := Exec.of_bind h
      unfold scan
      simp only [hd, Exec.ok_bind, drain_mono hx more]
      exact h
  | seek recordId =>
    obtain ⟨⟨d, s'⟩, hd, h⟩ := Exec.of_bind h
    unfold scan
    simp only [hd, Exec.ok_bind]
    cases d with
    | none => exact h
    | some d =>
      obtain ⟨x, hx, h⟩ := Exec.of_bind h
      simp only [drain_mono hx more, Exec.ok_bind]
      exact h

theorem scan_begin_iff {d : DatabaseIterator} {s' : σ} {l : Exec (List Nat)}
    (hbegin : DatabaseIterator.begin P flag filter b ahead s = .ok (d, s'))
    (hdrains : Drains P flag filter d s' l) (ids : List Nat) :
    (∃ fuel, scan P flag filter firstBlockId (b :: ahead) .begin fuel s = .ok ids) ↔
      l.map (fun rest => if d.m_blockIter.m_status = .OK then d.key :: rest else rest) =
        .ok ids := by
  rw [← hdrains.iff]
  have hscan : ∀ fuel, scan P flag filter firstBlockId (b :: ahead) .begin fuel s =
      ((drain P flag filter fuel d s').map Prod.fst).map
        (fun rest => if d.m_blockIter.m_status = .OK then d.key :: rest else rest) := by
    intro fuel
    unfold scan
    simp only [hbegin, Exec.ok_bind]
    cases drain P flag filter fuel d s' <;> rfl
  simp only [hscan]

theorem begin_ok {it' : SolidBlockIterator} {s' : σ}
    (h : SolidBlockIterator.create P b flag filter s = .ok (it', s')) (ahead : List SolidBlock) :
    DatabaseIterator.begin P flag filter b ahead s = .ok (⟨b, ahead, it'⟩, s') := by
  unfold DatabaseIterator.begin
  rw [h]
  rfl

/-- A scan from a block that it can begin in. -/
theorem scan_begin_startable (hS : Sound P data (b :: ahead)) (hflag : increase flag = true)
    (hb : Startable data filter b) (s : σ) (ids : List Nat) :
    (∃ fuel, scan P flag filter firstBlockId (b :: ahead) .begin fuel s = .ok ids) ↔
      (takenAll data filter ahead).map (recordIds b (rows data filter b 0) ++ ·) = .ok ids := by
  obtain ⟨hpos, hfirst⟩ := hb
  have hmem : b ∈ b :: ahead := List.mem_cons_self
  have hahead : DrainsAhead P flag filter data (b :: ahead) ahead :=
    drainsAhead hS hflag fun b' hb' => List.mem_cons_of_mem _ hb'
  obtain ⟨it', s', hcreate, hcase⟩ := begin_eq filter {} hmem hS.reads (hS.tables b hmem) hflag
    hpos s
  have hbegin := begin_ok hcreate ahead
  have hrows := rows_step data filter b 0
  rw [if_pos hpos] at hrows
  by_cases hp₀ : passes data filter b 0 = true
  · -- record 0
    rw [if_pos hp₀] at hcase hrows
    obtain ⟨hat, hok⟩ := hcase
    have hdrains := drains_from hS hmem hflag hahead (Nat.zero_le _) hat.seekedId
      (by rw [hok]; decide) s'
    have hkey : (DatabaseIterator.mk b ahead it').key = 0 + b.head.m_minRecordId :=
      hat.realRecordId
    rw [scan_begin_iff hbegin hdrains, map_map, hrows]
    simp only [hok, if_true, hkey]
    rfl
  rw [if_neg hp₀] at hcase hrows
  obtain ⟨hseek, hcase⟩ := hcase
  have hrows₁ := rows_step data filter b 1
  by_cases hone : b.head.m_recordCount = 1
  · -- the block is over
    rw [if_pos hone] at hcase
    rw [if_neg (by omega)] at hrows₁
    have hdrains := drains_from hS hmem hflag hahead (by omega) hseek (by rw [hcase]; decide) s'
    rw [scan_begin_iff hbegin hdrains, map_map, hrows, hrows₁]
    rw [rows_step, if_neg (by omega)]
    simp only [hcase]
    rfl
  rw [if_neg hone] at hcase
  rw [if_pos (by omega)] at hrows₁
  by_cases hp₁ : passes data filter b 1 = true
  · -- record 1
    rw [if_pos hp₁] at hcase hrows₁
    obtain ⟨hat, hok⟩ := hcase
    have hdrains := drains_from hS hmem hflag hahead (by omega) hat.seekedId
      (by rw [hok]; decide) s'
    have hkey : (DatabaseIterator.mk b ahead it').key = 1 + b.head.m_minRecordId :=
      hat.realRecordId
    rw [scan_begin_iff hbegin hdrains, map_map, hrows, hrows₁]
    simp only [hok, if_true, hkey]
    rfl
  · -- the status stays `INVALID`, and no record behind these is rejected
    rw [if_neg hp₁] at hcase hrows₁
    have hall : ∀ j, 1 < j → j < b.head.m_recordCount → passes data filter b j = true := by
      rcases hfirst with h | h | h
      · exact absurd h hp₀
      · exact absurd h hp₁
      · exact h
    have hdrains := drains_invalid_through hS hmem hflag hahead (by omega) hseek hcase hall s'
    rw [scan_begin_iff hbegin hdrains, map_map, hrows, hrows₁]
    simp only [hcase]
    rfl

/-- A first block that `begin` does not get over: the records from number 2 to the first that does
    not pass. -/
theorem scan_begin_stuck (hS : Sound P data (b :: ahead)) (hflag : increase flag = true)
    (hpos : 0 < b.head.m_recordCount) (hb : ¬Startable data filter b) (firstBlockId : Nat)
    (s : σ) :
    ∃ j, 2 ≤ j ∧ j < b.head.m_recordCount ∧ passes data filter b j ≠ true ∧
      rows data filter b 0 = List.range' 2 (j - 2) ++ rows data filter b (j + 1) ∧
      ∀ ids, (∃ fuel, scan P flag filter firstBlockId (b :: ahead) .begin fuel s = .ok ids) ↔
        recordIds b (List.range' 2 (j - 2)) = ids := by
  have hmem : b ∈ b :: ahead := List.mem_cons_self
  have hb' : passes data filter b 0 ≠ true ∧ passes data filter b 1 ≠ true ∧
      ∃ i, 2 ≤ i ∧ i < b.head.m_recordCount ∧ passes data filter b i ≠ true := by
    refine ⟨fun h => hb ⟨hpos, .inl h⟩, fun h => hb ⟨hpos, .inr (.inl h)⟩, ?_⟩
    by_contra hno
    refine hb ⟨hpos, .inr (.inr ?_)⟩
    intro i hi hlt
    by_contra hp
    exact hno ⟨i, hi, hlt, hp⟩
  obtain ⟨hp₀, hp₁, hstop⟩ := hb'
  -- the first record from 2 on that does not pass
  let j := Nat.find hstop
  obtain ⟨hj₂, hjlt, hjstop⟩ : 2 ≤ j ∧ j < b.head.m_recordCount ∧ passes data filter b j ≠ true :=
    Nat.find_spec hstop
  have hmin : ∀ i, 2 ≤ i → i < j → passes data filter b i = true := by
    intro i hi hij
    by_contra hp
    exact Nat.find_min hstop hij ⟨hi, by omega, hp⟩
  refine ⟨j, hj₂, hjlt, hjstop, ?_, ?_⟩
  · have hrun := rows_run data filter b 2 (j - 2) (by omega) fun i hi hij => hmin i hi (by omega)
    rw [show 2 + (j - 2) = j by omega, rows_skip hjlt hjstop] at hrun
    rw [rows_skip hpos hp₀, rows_skip (by omega) hp₁, hrun]
  · intro ids
    obtain ⟨it', s', hcreate, hcase⟩ := begin_eq filter {} hmem hS.reads (hS.tables b hmem) hflag
      hpos s
    rw [if_neg hp₀, if_pos rfl, if_neg (by omega), if_neg hp₁] at hcase
    have hdrains : Drains P flag filter ⟨b, ahead, it'⟩ s'
        (.ok (recordIds b (List.range' (1 + 1) (j - 2)))) :=
      drains_invalid_until hS hmem hflag (by omega) hcase.1 hcase.2
        (fun i hi hij => hmin i (by omega) (by omega))
        (by rw [show 1 + 1 + (j - 2) = j by omega]; exact hjstop) s'
    rw [scan_begin_iff (begin_ok hcreate ahead) hdrains]
    simp only [hcase.2]
    constructor
    · intro h
      injection h
    · intro h
      exact congrArg Except.ok h

/-- A scan from a block without records gives one record too many, or reads outside. -/
theorem scan_begin_empty (hS : Sound P data (b :: ahead)) (hflag : increase flag = true)
    (hzero : b.head.m_recordCount = 0) (s : σ) (fuel : Nat) :
    scan P flag filter firstBlockId (b :: ahead) .begin fuel s ≠
      .ok (chainRows data filter (b :: ahead)) := by
  have hmem : b ∈ b :: ahead := List.mem_cons_self
  cases filter with
  | none =>
    have hahead : DrainsAhead P flag none data (b :: ahead) ahead :=
      drainsAhead hS hflag fun b' hb' => List.mem_cons_of_mem _ hb'
    let it' : SolidBlockIterator := {
      m_recordId := 0
      m_realRecordId := b.head.m_minRecordId
      m_status := .OK }
    have hcreate : SolidBlockIterator.create P b flag none s = .ok (it', s) := by
      unfold SolidBlockIterator.create SolidBlockIterator.begin
      simp only [hflag, if_true]
      rfl
    have hdrains := drains_from hS hmem hflag hahead (i := 0) (Nat.zero_le _)
      (show it'.m_seekedId = 0 from rfl) (show IterStatus.OK ≠ .INVALID by decide) s
    intro h
    have hscan := (scan_begin_iff (begin_ok hcreate ahead) hdrains _).mp ⟨fuel, h⟩
    -- one record too many
    have hnil : ∀ n, rows data none b n = [] := by
      intro n
      rw [rows_step, if_neg (by omega)]
    cases htaken : takenAll data none ahead with
    | error e =>
      rw [htaken] at hscan
      cases hscan
    | ok l =>
      have hge := (takenAll_length htaken).2 rfl
      rw [htaken] at hscan
      injection hscan with heq
      have hchain : chainRows data none (b :: ahead) = chainRows data none ahead := by
        show recordIds b (rows data none b 0) ++ chainRows data none ahead = _
        rw [hnil]
        rfl
      rw [hchain, hnil] at heq
      have hlen : l.length + 1 = (chainRows data none ahead).length := congrArg List.length heq
      omega
  | some f =>
    have hinfo : b.m_recordInfos[0]? = none := by
      rw [List.getElem?_eq_none]
      rw [(hS.tables b hmem).infos]
      omega
    have hcreate : SolidBlockIterator.create P b flag (some f) s = .error .outOfBounds := by
      unfold SolidBlockIterator.create SolidBlockIterator.begin
        SolidBlockIterator.filterCurrentSeekRecord
      simp only [hflag, if_true, tableAt, hinfo]
      rfl
    intro h
    simp only [scan, DatabaseIterator.begin, hcreate] at h
    cases h

/-- When a scan from the first block gives all records. -/
theorem scan_begin_complete_iff (hS : Sound P data (b :: ahead)) (hflag : increase flag = true)
    (s : σ) :
    (∃ fuel, scan P flag filter firstBlockId (b :: ahead) .begin fuel s =
      .ok (chainRows data filter (b :: ahead))) ↔ Unbroken data filter (b :: ahead) .begin := by
  have hchain : chainRows data filter (b :: ahead) =
      recordIds b (rows data filter b 0) ++ chainRows data filter ahead := rfl
  by_cases hzero : b.head.m_recordCount = 0
  · constructor
    · rintro ⟨fuel, h⟩
      exact absurd h (scan_begin_empty hS hflag hzero s fuel)
    · rintro ⟨_, _, heq, h⟩
      cases heq
      rcases h with ⟨⟨hpos, -⟩, -⟩ | ⟨⟨j, -, hj, -⟩, -⟩ <;> omega
  by_cases hstart : Startable data filter b
  · rw [scan_begin_startable hS hflag hstart, hchain, map_append_eq_iff]
    constructor
    · intro h
      exact ⟨b, ahead, rfl, .inl ⟨hstart, h⟩⟩
    · rintro ⟨_, _, heq, h⟩
      cases heq
      rcases h with ⟨-, h⟩ | ⟨⟨j, hj₂, hj, hrows⟩, -⟩
      · exact h
      · -- `j` is rejected, and so are 0 and 1
        have hno : ∀ i, i < 2 ∨ i = j → i < b.head.m_recordCount → passes data filter b i ≠ true := by
          intro i hi hlt hp
          have hin : i ∈ rows data filter b 0 := mem_rows.mpr ⟨Nat.zero_le _, hlt, hp⟩
          rw [hrows, List.mem_range'_1] at hin
          omega
        rcases hstart.2 with h | h | h
        · exact absurd h (hno 0 (by omega) (by omega))
        · exact absurd h (hno 1 (by omega) (by omega))
        · exact absurd (h j hj₂ hj) (hno j (by omega) hj)
  · obtain ⟨j, hj₂, hj, hstop, hrun, hscan⟩ := scan_begin_stuck hS hflag (by omega) hstart
      firstBlockId s
    rw [hscan, hchain]
    constructor
    · intro h
      rw [hrun, recordIds, recordIds, List.map_append, List.append_assoc] at h
      have hrest := List.append_eq_nil_iff.mp (List.self_eq_append_right.mp h)
      refine ⟨b, ahead, rfl, .inr ⟨⟨j, hj₂, hj, ?_⟩, hrest.2⟩⟩
      rw [hrun, List.map_eq_nil_iff.mp hrest.1, List.append_nil]
    · rintro ⟨_, _, heq, h⟩
      cases heq
      rcases h with ⟨h, -⟩ | ⟨⟨k, hk₂, hk, hrows⟩, hnone⟩
      · exact absurd h hstart
      · -- a record that passes behind `j` would lie in the run, and so would `j`
        have hbehind : rows data filter b (j + 1) = [] := by
          rw [List.eq_nil_iff_forall_not_mem]
          intro i hi
          have hmem : i ∈ rows data filter b 0 := by
            rw [hrun]
            exact List.mem_append_right _ hi
          have hij := (mem_rows.mp hi).1
          rw [hrows, List.mem_range'_1] at hmem
          have hjmem : j ∈ rows data filter b 0 := by
            rw [hrows, List.mem_range'_1]
            omega
          exact hstop (mem_rows.mp hjmem).2.2
        rw [hrun, hbehind, hnone, List.append_nil, List.append_nil]

/-! ## Seeks -/

private theorem lastRecordId_eq (hpos : 1 ≤ b.head.m_minRecordId + b.head.m_recordCount)
    (hbound : b.head.m_minRecordId + b.head.m_recordCount < 2 ^ 64) :
    b.lastRecordId = b.head.m_minRecordId + b.head.m_recordCount - 1 := by
  unfold SolidBlock.lastRecordId
  omega

theorem Ascending.tail (h : Ascending (b :: ahead)) : Ascending ahead where
  pos := fun b' hb' => h.pos b' (List.mem_cons_of_mem _ hb')
  bound := fun b' hb' => h.bound b' (List.mem_cons_of_mem _ hb')
  blocks := (List.pairwise_cons.mp h.blocks).2

theorem Ascending.unique {b' : SolidBlock} {before' ahead' : List SolidBlock} {r : Nat}
    (h : Ascending (before ++ b :: ahead)) (heq : before ++ b :: ahead = before' ++ b' :: ahead')
    (hle : b.head.m_minRecordId ≤ r)
    (hlt : r < b.head.m_minRecordId + b.head.m_recordCount)
    (hle' : b'.head.m_minRecordId ≤ r)
    (hlt' : r < b'.head.m_minRecordId + b'.head.m_recordCount) : b' = b ∧ ahead' = ahead := by
  have hpair := h.blocks
  induction before generalizing before' with
  | nil =>
    cases before' with
    | nil =>
      cases heq
      exact ⟨rfl, rfl⟩
    | cons a before' =>
      cases heq
      have := (List.pairwise_cons.mp hpair).1 b' (List.mem_append_right _ List.mem_cons_self)
      omega
  | cons a before ih =>
    cases before' with
    | nil =>
      cases heq
      have := (List.pairwise_cons.mp hpair).1 b (List.mem_append_right _ List.mem_cons_self)
      omega
    | cons a' before' =>
      injection heq with _ heq
      exact ih h.tail heq (List.pairwise_cons.mp hpair).2

theorem mem_recordIds {is : List Nat} {r : Nat} :
    r ∈ recordIds b is ↔ ∃ i ∈ is, i + b.head.m_minRecordId = r := List.mem_map

theorem mem_recordIds_rows {r : Nat} (h : r ∈ recordIds b (rows data filter b 0)) :
    b.head.m_minRecordId ≤ r ∧ r < b.head.m_minRecordId + b.head.m_recordCount := by
  obtain ⟨i, hi, rfl⟩ := mem_recordIds.mp h
  have hlt := (mem_rows.mp hi).2.1
  omega

theorem chainRows_pairwise (h : Ascending blocks) :
    (chainRows data filter blocks).Pairwise (· < ·) := by
  unfold chainRows
  rw [List.pairwise_flatMap]
  constructor
  · intro b hb
    unfold recordIds rows
    rw [List.pairwise_map]
    refine ((List.pairwise_lt_range' (s := 0) (n := b.head.m_recordCount - 0)).filter _).imp ?_
    intro i j hij
    omega
  · refine h.blocks.imp ?_
    intro b b' hle r hr r' hr'
    have := (mem_recordIds_rows hr).2
    have := (mem_recordIds_rows hr').1
    omega

theorem filter_recordIds {n : Nat} (hn : n < b.head.m_recordCount) :
    (recordIds b (rows data filter b 0)).filter (b.head.m_minRecordId + n ≤ ·) =
      recordIds b (rows data filter b n) := by
  let late : Nat → Bool := fun i => b.head.m_minRecordId + n ≤ i + b.head.m_minRecordId
  have hlate : ∀ i, late i = true ↔ n ≤ i := by
    intro i
    rw [decide_eq_true_eq]
    omega
  have hrows : (rows data filter b 0).filter late = rows data filter b n := by
    unfold rows
    rw [List.filter_filter,
      show b.head.m_recordCount - 0 = n + (b.head.m_recordCount - n) by omega,
      ← List.range'_append_1, List.filter_append, Nat.zero_add]
    have hleft : (List.range' 0 n).filter (fun i => late i && passes data filter b i) = [] := by
      rw [List.filter_eq_nil_iff]
      intro i hi
      have hlt := (List.mem_range'_1.mp hi).2
      rw [Bool.and_eq_true, hlate]
      omega
    rw [hleft, List.nil_append]
    apply List.filter_congr
    intro i hi
    rw [(hlate i).mpr (List.mem_range'_1.mp hi).1, Bool.true_and]
  unfold recordIds
  rw [List.filter_map, ← hrows]
  rfl

theorem scanRows_seek (h : Ascending (before ++ b :: ahead)) {n : Nat}
    (hn : n < b.head.m_recordCount) :
    scanRows data filter (before ++ b :: ahead) (.seek (b.head.m_minRecordId + n)) =
      recordIds b (rows data filter b n) ++ chainRows data filter ahead := by
  obtain ⟨-, hpair, hcross⟩ := List.pairwise_append.mp h.blocks
  show (chainRows data filter (before ++ b :: ahead)).filter (b.head.m_minRecordId + n ≤ ·) = _
  unfold chainRows
  rw [List.flatMap_append, List.flatMap_cons, List.filter_append, List.filter_append,
    filter_recordIds hn]
  have hbefore : (before.flatMap fun b => recordIds b (rows data filter b 0)).filter
      (b.head.m_minRecordId + n ≤ ·) = [] := by
    rw [List.filter_eq_nil_iff]
    intro r hr
    obtain ⟨b', hb', hr⟩ := List.mem_flatMap.mp hr
    have hlt := (mem_recordIds_rows hr).2
    have hle := hcross b' hb' b List.mem_cons_self
    simp only [decide_eq_true_eq]
    omega
  have hafter : (ahead.flatMap fun b => recordIds b (rows data filter b 0)).filter
      (b.head.m_minRecordId + n ≤ ·) =
      ahead.flatMap fun b => recordIds b (rows data filter b 0) := by
    rw [List.filter_eq_self]
    intro r hr
    obtain ⟨b', hb', hr⟩ := List.mem_flatMap.mp hr
    have hge := (mem_recordIds_rows hr).1
    have hle := (List.pairwise_cons.mp hpair).1 b' hb'
    simp only [decide_eq_true_eq]
    omega
  rw [hbefore, hafter, List.nil_append]

/-- The search by id ends in the block of the id. -/
theorem findBlock_eq (h : Ascending (before ++ b :: ahead)) {n : Nat}
    (hn : n < b.head.m_recordCount) (firstBlockId : Nat) :
    ∃ lo hi, binarySearch Fault.endless
      (DatabaseIterator.compareBlock firstBlockId (before ++ b :: ahead) (b.head.m_minRecordId + n))
      ((before ++ b :: ahead).length + 1) firstBlockId
      (firstBlockId + ((before ++ b :: ahead).length : Nat) - 1) 0 =
      .ok (true, (firstBlockId + before.length : Nat), lo, hi) := by
  obtain ⟨-, hpair, hcross⟩ := List.pairwise_append.mp h.blocks
  have hafter := (List.pairwise_cons.mp hpair).1
  have hcompare : ∀ i b', (before ++ b :: ahead)[i]? = some b' →
      DatabaseIterator.compareBlock firstBlockId (before ++ b :: ahead) (b.head.m_minRecordId + n)
        (firstBlockId + i : Nat) =
      .ok (if b'.head.m_minRecordId + b'.head.m_recordCount - 1 < b.head.m_minRecordId + n then .gt
        else if b.head.m_minRecordId + n < b'.head.m_minRecordId then .lt else .eq) := by
    intro i b' hb'
    have hmem := List.mem_of_getElem? hb'
    unfold DatabaseIterator.compareBlock
    rw [show (((firstBlockId + i : Nat) : Int) - firstBlockId).toNat = i by omega, hb',
      ← lastRecordId_eq (h.pos b' hmem) (h.bound b' hmem)]
  apply binarySearch_hit
  · omega
  · rw [List.length_append, List.length_cons]
    omega
  · -- the blocks before it
    intro i hlo hi
    obtain ⟨k, rfl⟩ : ∃ k : Nat, i = (firstBlockId + k : Nat) :=
      ⟨(i - firstBlockId).toNat, by omega⟩
    have hk : k < before.length := by omega
    have hget : (before ++ b :: ahead)[k]? = some before[k] := by
      rw [List.getElem?_append_left hk, List.getElem?_eq_getElem hk]
    have hle := hcross _ (List.getElem_mem hk) b List.mem_cons_self
    have hpos := h.pos _ (List.mem_of_getElem? hget)
    rw [hcompare k _ hget, if_pos (by omega)]
  · have hget : (before ++ b :: ahead)[before.length]? = some b := by
      rw [List.getElem?_append_right (Nat.le_refl _), Nat.sub_self]
      rfl
    rw [hcompare _ _ hget, if_neg (by omega), if_neg (by omega)]
  · -- the blocks behind it
    intro i hlo hi
    rw [List.length_append, List.length_cons] at hi
    obtain ⟨k, rfl⟩ : ∃ k : Nat, i = (firstBlockId + (before.length + (k + 1)) : Nat) :=
      ⟨(i - firstBlockId - before.length - 1).toNat, by omega⟩
    have hk : k < ahead.length := by omega
    have hget : (before ++ b :: ahead)[before.length + (k + 1)]? = some ahead[k] := by
      rw [List.getElem?_append_right (by omega), Nat.add_sub_cancel_left, List.getElem?_cons_succ,
        List.getElem?_eq_getElem hk]
    have hle := hafter _ (List.getElem_mem hk)
    rw [hcompare _ _ hget, if_neg (by omega), if_pos (by omega)]
  · rw [List.length_append, List.length_cons]
    omega

/-- When a scan from an id gives all records from it on. -/
theorem scan_seek_complete_iff (hS : Sound P data (before ++ b :: ahead))
    (hA : Ascending (before ++ b :: ahead)) (hflag : increase flag = true) {n : Nat}
    (hn : n < b.head.m_recordCount) (firstBlockId : Nat) (s : σ) :
    (∃ fuel, scan P flag filter firstBlockId (before ++ b :: ahead)
      (.seek (b.head.m_minRecordId + n)) fuel s =
      .ok (recordIds b (rows data filter b n) ++ chainRows data filter ahead)) ↔
      if rows data filter b n = [] then chainRows data filter ahead = []
      else ∀ b' ∈ ahead, Enterable data filter b' := by
  have hmem : b ∈ before ++ b :: ahead := List.mem_append_right _ List.mem_cons_self
  have hahead : DrainsAhead P flag filter data (before ++ b :: ahead) ahead :=
    drainsAhead hS hflag fun b' hb' => List.mem_append_right _ (List.mem_cons_of_mem _ hb')
  obtain ⟨lo, hi, hfind⟩ := findBlock_eq hA hn firstBlockId
  obtain ⟨it₁, s₁, hcreate, -⟩ := begin_eq filter {} hmem hS.reads (hS.tables b hmem) hflag
    (by omega) s
  obtain ⟨ok, it', s', hseek, hcase⟩ := seekTo_eq filter { it₁ with m_status := .UNINIT } hmem
    hS.reads (hS.tables b hmem) hflag hn (show IterStatus.UNINIT ≠ .INVALID by decide) s₁
  have hget : tableAt (before ++ b :: ahead) before.length = .ok b := by
    unfold tableAt
    rw [List.getElem?_append_right (Nat.le_refl _), Nat.sub_self]
    rfl
  have hdrop : (before ++ b :: ahead).drop (before.length + 1) = ahead := by
    rw [← List.drop_drop, List.drop_left]
    rfl
  have hrecord : SolidBlockIterator.seekRecordId P b flag filter (b.head.m_minRecordId + n) it₁ s₁ =
      .ok (ok, it', s') := by
    unfold SolidBlockIterator.seekRecordId
    rw [if_neg (by omega), Nat.add_sub_cancel_left]
    exact hseek
  have hseekIn : DatabaseIterator.seek P flag filter firstBlockId (before ++ b :: ahead)
      (b.head.m_minRecordId + n) s =
      if ok then .ok (some ⟨b, ahead, it'⟩, s')
      else P.clear b s' >>= fun s => .ok (none, s) := by
    unfold DatabaseIterator.seek
    simp only [hfind, Exec.ok_bind, if_true]
    rw [show (((firstBlockId + before.length : Nat) : Int) - firstBlockId).toNat = before.length
      by omega, hget, hdrop]
    show DatabaseIterator.seekIn P flag filter b ahead _ s = _
    unfold DatabaseIterator.seekIn
    rw [show SolidBlockIterator.create P b flag filter s = .ok (it₁, s₁) from hcreate]
    simp only [Exec.ok_bind, hrecord]
    rfl
  rcases hcase with ⟨rfl, hnone⟩ | ⟨rfl, hok, i, hat, hi, hrows⟩
  · -- nothing from the record on passes in its block
    obtain ⟨s₂, hs₂⟩ := hS.reads.clear b hmem s'
    have hscan : ∀ fuel, scan P flag filter firstBlockId (before ++ b :: ahead)
        (.seek (b.head.m_minRecordId + n)) fuel s = .ok [] := by
      intro fuel
      unfold scan
      simp only [hseekIn, Bool.false_eq_true, if_false, hs₂, Exec.ok_bind]
      rfl
    rw [if_pos hnone, hnone]
    constructor
    · rintro ⟨fuel, h⟩
      rw [hscan] at h
      injection h with h
      exact h.symm
    · intro h
      exact ⟨0, by rw [hscan, h]; rfl⟩
  · have hdrains := drains_from hS hmem hflag hahead (Nat.le_of_lt hi) hat.seekedId
      (by rw [hok]; decide) s'
    have hkey : (DatabaseIterator.mk b ahead it').key = i + b.head.m_minRecordId :=
      hat.realRecordId
    have hscan : ∀ fuel, scan P flag filter firstBlockId (before ++ b :: ahead)
        (.seek (b.head.m_minRecordId + n)) fuel s =
        ((drain P flag filter fuel ⟨b, ahead, it'⟩ s').map Prod.fst).map
          ((i + b.head.m_minRecordId) :: ·) := by
      intro fuel
      unfold scan
      simp only [hseekIn, if_true, Exec.ok_bind, hkey]
      cases drain P flag filter fuel ⟨b, ahead, it'⟩ s' <;> rfl
    simp only [hscan]
    rw [hdrains.iff, map_map, if_neg (by rw [hrows]; exact List.cons_ne_nil _ _), hrows]
    exact map_append_eq_iff (recordIds b (i :: rows data filter b (i + 1)))

theorem mem_scanRows {start : ScanStart} {r : Nat} :
    r ∈ scanRows data filter blocks start ↔ Wanted data filter blocks start r := by
  have hchain : r ∈ chainRows data filter blocks ↔ ∃ b ∈ blocks, ∃ i < b.head.m_recordCount,
      passes data filter b i = true ∧ r = i + b.head.m_minRecordId := by
    unfold chainRows
    rw [List.mem_flatMap]
    constructor
    · rintro ⟨b, hb, hr⟩
      obtain ⟨i, hi, rfl⟩ := mem_recordIds.mp hr
      obtain ⟨-, hlt, hp⟩ := mem_rows.mp hi
      exact ⟨b, hb, i, hlt, hp, rfl⟩
    · rintro ⟨b, hb, i, hlt, hp, rfl⟩
      exact ⟨b, hb, mem_recordIds.mpr ⟨i, mem_rows.mpr ⟨Nat.zero_le _, hlt, hp⟩, rfl⟩⟩
  cases start with
  | begin => exact hchain.trans ⟨fun h => ⟨Nat.zero_le _, h⟩, fun h => h.2⟩
  | seek recordId =>
    show r ∈ (chainRows data filter blocks).filter (recordId ≤ ·) ↔ _
    rw [List.mem_filter, hchain, decide_eq_true_eq]
    exact and_comm

theorem scanRows_pairwise (h : Ascending blocks) (start : ScanStart) :
    (scanRows data filter blocks start).Pairwise (· < ·) := by
  cases start with
  | begin => exact chainRows_pairwise h
  | seek recordId => exact (chainRows_pairwise h).filter _

/-- A scan of a chain of solid blocks gives every record that passes, in the order of their ids and
    each once, exactly when it can start in its first block and enter every other. -/
theorem scan_complete_iff (hS : Sound P data blocks) (hA : Ascending blocks) (start : ScanStart)
    (hstart : start.In blocks) (firstBlockId : Nat) (s : σ) :
    (∃ fuel ids, scan P 0 filter firstBlockId blocks start fuel s = .ok ids ∧
      ids.Pairwise (· < ·) ∧ ∀ r, r ∈ ids ↔ Wanted data filter blocks start r) ↔
      Unbroken data filter blocks start := by
  -- a sorted list is determined by its members
  have hlist : (∃ fuel ids, scan P 0 filter firstBlockId blocks start fuel s = .ok ids ∧
      ids.Pairwise (· < ·) ∧ ∀ r, r ∈ ids ↔ Wanted data filter blocks start r) ↔
      ∃ fuel, scan P 0 filter firstBlockId blocks start fuel s =
        .ok (scanRows data filter blocks start) := by
    constructor
    · rintro ⟨fuel, ids, hscan, hsorted, hmem⟩
      refine ⟨fuel, ?_⟩
      rw [hscan, hsorted.eq_of_mem_iff (scanRows_pairwise hA start)
        fun r => (hmem r).trans mem_scanRows.symm]
    · rintro ⟨fuel, hscan⟩
      exact ⟨fuel, _, hscan, scanRows_pairwise hA start, fun r => mem_scanRows⟩
  rw [hlist]
  have hflag : increase 0 = true := rfl
  cases start with
  | begin =>
    cases blocks with
    | nil => exact absurd rfl hstart
    | cons b ahead => exact scan_begin_complete_iff hS hflag s
  | seek recordId =>
    obtain ⟨b, hb, hle, hlt⟩ := hstart
    obtain ⟨before, ahead, rfl⟩ := List.append_of_mem hb
    obtain ⟨n, rfl⟩ : ∃ n, recordId = b.head.m_minRecordId + n :=
      ⟨recordId - b.head.m_minRecordId, by omega⟩
    have hn : n < b.head.m_recordCount := by omega
    rw [scanRows_seek hA hn, scan_seek_complete_iff hS hA hflag hn]
    constructor
    · intro h
      refine ⟨before, b, ahead, rfl, hle, hlt, ?_⟩
      rw [Nat.add_sub_cancel_left]
      exact h
    · rintro ⟨before', b', ahead', heq, hle', hlt', h⟩
      -- the block of the record is the only one
      obtain ⟨rfl, rfl⟩ : b' = b ∧ ahead' = ahead := hA.unique heq hle hlt hle' hlt'
      rw [Nat.add_sub_cancel_left] at h
      exact h

end

/-! ## Two blocks -/

def inMemory : PageReader Unit where
  value b i _ := do
    let info ← tableAt b.m_recordInfos i
    let p ← tableAt b.pages (RecordPosition.pageId info.offset)
    return (p.pageData.map (List.drop (RecordPosition.offsetInPage info.offset)), ())
  clear _ _ := .ok ()

/-- A block of two tables with records of the tables `tables`, which are all alike. -/
def tableBlock (blockId minRecordId : Nat) (tables : List Nat) : SolidBlock where
  head := {
    m_version := 1
    m_flag := {}
    m_blockID := blockId
    m_prevBlockID := blockId - 1
    m_tableID := 0
    m_minTime := 0
    m_maxTime := 0
    m_minLogOffset := 0
    m_maxLogOffset := 0
    m_minRecordId := minRecordId
    m_recordCount := tables.length
    m_minTxnId := 0
    m_maxTxnId := 0
    m_tableCount := 2
    m_pageCount := 1
    m_solidBlockHeadPageRawSize := 0
    m_solidBlockHeadPageSize := 0
    m_rawSize := 0
    m_fileSize := 0
    m_crc := 0 }
  m_tableInfo := [{ tableId := 100 }, { tableId := 101 }]
  m_recordInfos := tables.map fun t => { tableIndex := t }
  m_recordIdOrderyTable := []
  pageOffsets := []
  pageInfo := []
  pages := [⟨⟨0, 4, 4, 0, 0⟩, some [1, 2, 3, 4]⟩]

def onlyFirstTable : Filter where
  filterByGeneralInfo tableId _ _ _ := tableId = 100
  onlyNeedGeneralInfo := true
  filterByRecord _ := true

theorem value_tableBlock {blockId minRecordId i : Nat} {tables : List Nat} (hi : i < tables.length) :
    inMemory.value (tableBlock blockId minRecordId tables) i () = .ok (some [1, 2, 3, 4], ()) := by
  have hinfo : (tableBlock blockId minRecordId tables).m_recordInfos[i]? =
      some { tableIndex := tables[i] } := by
    show (tables.map _)[i]? = _
    rw [List.getElem?_map, List.getElem?_eq_getElem hi]
    rfl
  simp only [inMemory, tableAt, hinfo, Exec.ok_bind]
  simp [RecordPosition.pageId, RecordPosition.offsetInPage, tableBlock, pure, Except.pure, bind,
    Except.bind]

theorem tables_tableBlock {blockId minRecordId : Nat} {tables : List Nat}
    (htables : ∀ t ∈ tables, t < 2) (hcount : tables.length < 2 ^ 32 - 1) :
    (tableBlock blockId minRecordId tables).Tables where
  infos := List.length_map _
  tables := by
    intro info hinfo
    obtain ⟨t, ht, rfl⟩ := List.mem_map.mp hinfo
    exact htables t ht
  count := hcount

private theorem sound_tableBlock {t₁ t₂ : List Nat} (h₁ : ∀ t ∈ t₁, t < 2) (h₂ : ∀ t ∈ t₂, t < 2)
    (hcount₁ : t₁.length < 2 ^ 32 - 1) (hcount₂ : t₂.length < 2 ^ 32 - 1) (min₁ min₂ : Nat) :
    Sound inMemory (fun _ _ => [1, 2, 3, 4]) [tableBlock 1 min₁ t₁, tableBlock 2 min₂ t₂] := by
  refine ⟨⟨?_, fun b hb s => ⟨(), rfl⟩⟩, ?_⟩
  · intro b hb i hi s
    refine ⟨(), ?_⟩
    rcases List.mem_cons.mp hb with rfl | hb
    · exact value_tableBlock hi
    · rw [List.mem_singleton.mp hb] at hi ⊢
      exact value_tableBlock hi
  · intro b hb
    rcases List.mem_cons.mp hb with rfl | hb
    · exact tables_tableBlock h₁ hcount₁
    · rw [List.mem_singleton.mp hb]
      exact tables_tableBlock h₂ hcount₂

theorem ascending_tableBlock {t₁ t₂ : List Nat} (h₁ : t₁.length < 2 ^ 32)
    (h₂ : t₂.length < 2 ^ 32) :
    Ascending [tableBlock 1 1 t₁, tableBlock 2 (1 + t₁.length) t₂] := by
  refine ⟨?_, ?_, List.pairwise_pair.mpr (Nat.le_refl _)⟩
  · intro b hb
    rcases List.mem_cons.mp hb with rfl | hb
    · show 1 ≤ 1 + t₁.length
      omega
    · rw [List.mem_singleton.mp hb]
      show 1 ≤ 1 + t₁.length + t₂.length
      omega
  · intro b hb
    rcases List.mem_cons.mp hb with rfl | hb
    · show 1 + t₁.length < 2 ^ 64
      omega
    · rw [List.mem_singleton.mp hb]
      show 1 + t₁.length + t₂.length < 2 ^ 64
      omega

/-- A second block that starts with a record of the table. -/
theorem scan_complete_two_blocks :
    ∃ fuel ids, scan inMemory 0 (some onlyFirstTable) 1
        [tableBlock 1 1 [1, 0], tableBlock 2 3 [0, 1, 0]] .begin fuel () = .ok ids ∧
      ids.Pairwise (· < ·) ∧
      ∀ r, r ∈ ids ↔ Wanted (fun _ _ => [1, 2, 3, 4]) (some onlyFirstTable)
        [tableBlock 1 1 [1, 0], tableBlock 2 3 [0, 1, 0]] .begin r := by
  apply (scan_complete_iff (sound_tableBlock (by decide) (by decide) (by decide) (by decide) 1 3)
    (ascending_tableBlock (by decide) (by decide)) .begin (List.cons_ne_nil _ _) 1 ()).mpr
  refine ⟨_, _, rfl, .inl ⟨⟨by decide, .inr (.inl (by decide))⟩, ?_⟩⟩
  intro b hb
  rw [List.mem_singleton.mp hb]
  exact ⟨by decide, .inl (by decide)⟩

/-- A second block that starts with a record of the other table: none of its records comes. -/
theorem scan_skips_block :
    (∃ fuel, scan inMemory 0 (some onlyFirstTable) 1
        [tableBlock 1 1 [0, 0], tableBlock 2 3 [1, 0]] .begin fuel () = .ok [1, 2]) ∧
    Wanted (fun _ _ => [1, 2, 3, 4]) (some onlyFirstTable)
      [tableBlock 1 1 [0, 0], tableBlock 2 3 [1, 0]] .begin 4 ∧
    ¬∃ fuel ids, scan inMemory 0 (some onlyFirstTable) 1
        [tableBlock 1 1 [0, 0], tableBlock 2 3 [1, 0]] .begin fuel () = .ok ids ∧
      ids.Pairwise (· < ·) ∧
      ∀ r, r ∈ ids ↔ Wanted (fun _ _ => [1, 2, 3, 4]) (some onlyFirstTable)
        [tableBlock 1 1 [0, 0], tableBlock 2 3 [1, 0]] .begin r := by
  have hscan : scan inMemory 0 (some onlyFirstTable) 1
      [tableBlock 1 1 [0, 0], tableBlock 2 3 [1, 0]] .begin 2 () = .ok [1, 2] := by rfl
  have hwanted : Wanted (fun _ _ => [1, 2, 3, 4]) (some onlyFirstTable)
      [tableBlock 1 1 [0, 0], tableBlock 2 3 [1, 0]] .begin 4 :=
    ⟨by decide, tableBlock 2 3 [1, 0], List.mem_cons_of_mem _ List.mem_cons_self, 1, by decide,
      by decide, rfl⟩
  refine ⟨⟨2, hscan⟩, hwanted, ?_⟩
  rintro ⟨fuel, ids, h, -, hmem⟩
  have heq := scan_mono h 2
  rw [Nat.add_comm, scan_mono hscan fuel] at heq
  cases heq
  exact absurd ((hmem 4).mpr hwanted) (by decide)

end DBStream.Native
