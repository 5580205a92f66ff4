import DBStream.ForStd.Loops
import DBStream.Spec.BlockSummary
import DBStream.Spec.CheckpointSeek
import DBStream.Spec.SolidCorrect

/-!
# Seeks by timestamp

The times of the records need not go up, so an ascending seek has to find the first record, in the
order of the ids, with a time that is not below its target.  A block is asked only if its
`m_minTime` is not behind the target, and only the first such block is.  `m_minTime` is the time
of the first record that has one, so a block that is passed over has a record to find:
`seekTimestamp_iff` says that only a record of the first block is found.
-/

namespace DBStream.Native

/-! ## The times of a block -/

variable {I : IndexImpl} {b : LogBlock I} {ts : List Nat} {flag timestamp : Nat}

/-- Record `i` of a block has the time `t`. -/
def LogBlock.HasTime (b : LogBlock I) (i t : Nat) : Prop :=
  match b with
  | .appending b => ∃ d, b.getRecordByIdx i = .ok d ∧ RecordHead.timestamp d = t
  | .solid b => ∃ info, b.m_recordInfos[i]? = some info ∧ info.timestamp = t

/-- The records of a block have the times `ts`, and its bounds are those `append` has left: 0
    counts as no time for the lower one. -/
structure LogBlock.Timed (b : LogBlock I) (ts : List Nat) : Prop where
  size : ts.length ≤ maxRecordInBlock
  count : b.m_recordCount = ts.length
  records : ∀ i t : Nat, ts[i]? = some t → b.HasTime i t
  minTime : b.m_minTime = (ts.find? (· ≠ 0)).getD 0
  maxTime : b.m_maxTime = ts.foldl max 0

/-- Where a seek to a record leaves the iterator, and the time of the record, for each record of
    the block. -/
def LogBlock.timed (b : LogBlock I) (ts : List Nat) : List (SeekPos × Nat) :=
  ts.mapIdx fun i t => (⟨b.m_blockID, i, b.m_minRecordId + i⟩, t)

def NotBefore (timestamp : Nat) (x : SeekPos × Nat) : Bool := decide (timestamp ≤ x.2)

theorem le_foldl_max {t : Nat} (init : Nat) (h : t ∈ ts ∨ t ≤ init) : t ≤ ts.foldl max init := by
  induction ts generalizing init with
  | nil =>
    rcases h with h | h
    · cases h
    · exact h
  | cons u ts ih =>
    apply ih
    rcases h with h | h
    · rcases List.mem_cons.mp h with rfl | h
      · exact Or.inr (Nat.le_max_right ..)
      · exact Or.inl h
    · exact Or.inr (Nat.le_trans h (Nat.le_max_left ..))

theorem LogBlock.Timed.minTime_mem (h : b.Timed ts) (hpos : 0 < b.m_minTime) :
    b.m_minTime ∈ ts := by
  rw [h.minTime] at hpos ⊢
  cases hfind : ts.find? (· ≠ 0) with
  | none =>
    rw [hfind] at hpos
    exact absurd hpos (Nat.lt_irrefl 0)
  | some t => exact List.mem_of_find?_eq_some hfind

theorem LogBlock.mem_timed {x : SeekPos × Nat} :
    x ∈ b.timed ts ↔ ∃ i, ts[i]? = some x.2 ∧ x.1 = ⟨b.m_blockID, i, b.m_minRecordId + i⟩ := by
  unfold LogBlock.timed
  rw [List.mem_iff_getElem?]
  simp only [List.getElem?_mapIdx, Option.map_eq_some_iff]
  constructor
  · rintro ⟨i, t, ht, rfl⟩
    exact ⟨i, ht, rfl⟩
  · rintro ⟨i, ht, hpos⟩
    exact ⟨i, x.2, ht, Prod.ext hpos.symm rfl⟩

theorem LogBlock.exists_notBefore (b : LogBlock I) (ts : List Nat) (timestamp : Nat) :
    (∃ x ∈ b.timed ts, NotBefore timestamp x = true) ↔ ∃ t ∈ ts, timestamp ≤ t := by
  simp only [LogBlock.mem_timed, NotBefore, decide_eq_true_eq]
  constructor
  · rintro ⟨x, ⟨i, hi, -⟩, hle⟩
    exact ⟨x.2, List.mem_of_getElem? hi, hle⟩
  · rintro ⟨t, ht, hle⟩
    obtain ⟨i, hi⟩ := List.mem_iff_getElem?.mp ht
    exact ⟨(⟨b.m_blockID, i, b.m_minRecordId + i⟩, t), ⟨i, hi, rfl⟩, hle⟩

theorem LogBlock.drop_timed {k : Nat} {t : Nat} (hk : ts[k]? = some t) :
    (b.timed ts).drop k =
      (⟨b.m_blockID, k, b.m_minRecordId + k⟩, t) :: (b.timed ts).drop (k + 1) := by
  obtain ⟨hlt, ht⟩ := List.getElem?_eq_some_iff.mp hk
  have hlen : k < (b.timed ts).length := by
    unfold LogBlock.timed
    rw [List.length_mapIdx]
    exact hlt
  rw [List.drop_eq_getElem_cons hlen]
  simp [LogBlock.timed, ht]

/-- What `append` does to the bounds of a block. -/
def widen (x : Nat × Nat) (t : Nat) : Nat × Nat := (if x.1 = 0 then t else x.1, max x.2 t)

private theorem foldl_widen (ts : List Nat) (x : Nat × Nat) :
    ts.foldl widen x =
      (if x.1 = 0 then (ts.find? (· ≠ 0)).getD 0 else x.1, ts.foldl max x.2) := by
  induction ts generalizing x with
  | nil =>
    by_cases hx : x.1 = 0
    · simp [Prod.ext_iff, hx]
    · simp [hx]
  | cons t ts ih =>
    rw [List.foldl_cons, ih, List.foldl_cons, List.find?_cons]
    by_cases hx : x.1 = 0
    · by_cases ht : t = 0
      · simp [widen, hx, ht]
      · simp [widen, hx, ht]
    · simp [widen, hx]

namespace AppendingBlock

variable {Γ : MetaDataCollection I} {b b' : AppendingBlock I} {acc : List Record}

private theorem step_times {op : Op} {s : AppendingBlockStaus} (h : b.step Γ op = .ok (s, b')) :
    (b'.m_minTime, b'.m_maxTime) = ((accepted op s).map fun r => RecordHead.timestamp r.data).foldl
      widen (b.m_minTime, b.m_maxTime) := by
  have hbounds := step_bounds h
  rcases accepted_eq op s with hnone | ⟨r, io, rfl, rfl, hacc⟩
  · rw [hnone] at hbounds ⊢
    exact Prod.ext (congrArg Bounds.minTime hbounds) (congrArg Bounds.maxTime hbounds)
  · rw [hacc] at hbounds ⊢
    exact Prod.ext (congrArg Bounds.minTime hbounds) (congrArg Bounds.maxTime hbounds)

theorem Run.times {P : AppendingBlock I → Op → AppendingBlockStaus → Prop}
    {b₀ : AppendingBlock I} (h : Run Γ P b₀ b acc) :
    (b.m_minTime, b.m_maxTime) =
      (acc.map fun r => RecordHead.timestamp r.data).foldl widen (b₀.m_minTime, b₀.m_maxTime) := by
  induction h with
  | nil => rfl
  | snoc _ _ call ih => rw [step_times call, ih, List.map_append, List.foldl_append]

theorem timed_of_run {P : AppendingBlock I → Op → AppendingBlockStaus → Prop} {blockId : Nat}
    {flag : BlockFlag} {bufSize : Nat} {flushSize flushPeriod : Int} {startID : Nat}
    (hP : ∀ b op, P b op .B_OK → LandsIn Γ RecordPosition.Fits b op)
    (hrun : Run Γ P (create blockId flag bufSize flushSize flushPeriod startID) b acc) :
    (LogBlock.appending b).Timed (acc.map fun r => RecordHead.timestamp r.data) := by
  have hc := hrun.contents (layout_create Γ blockId flag bufSize flushSize flushPeriod startID)
    (contents_create Γ RecordPosition.Fits blockId flag bufSize flushSize flushPeriod startID) hP
  have hle := hrun.recordCount_le (Nat.zero_le _)
  have htimes := hrun.times
  rw [foldl_widen] at htimes
  constructor
  · rw [List.length_map, ← hc.count]
    exact hle
  · rw [List.length_map]
    exact hc.count
  · intro i t ht
    rw [List.getElem?_map] at ht
    obtain ⟨r, hr, rfl⟩ := Option.map_eq_some_iff.mp ht
    exact ⟨_, hc.getRecordByIdx hr, RecordHead.timestamp_setRecordId r.head_le _⟩
  · exact congrArg Prod.fst htimes
  · exact congrArg Prod.snd htimes

theorem timed_toSolidBlock {blockId : Nat} {flag : BlockFlag} {bufSize : Nat}
    {flushSize flushPeriod : Int} {startID : Nat}
    (hrun : Run Γ (RowCall Γ) (create blockId flag bufSize flushSize flushPeriod startID) b acc)
    (hidx : IndexesConvert b) :
    ∃ s, b.toSolidBlock = .ok s ∧
      (LogBlock.solid s : LogBlock I).Timed (acc.map fun r => RecordHead.timestamp r.data) := by
  have htimed := timed_of_run (fun _ _ h => RowCall.landsIn h) hrun
  obtain ⟨s, hs, hhead, hpreserved⟩ := toSolidBlock_of_rowCalls Γ blockId flag bufSize flushSize
    flushPeriod startID hrun hidx
  refine ⟨s, hs, htimed.size, ?_, ?_, ?_, ?_⟩
  · show s.head.m_recordCount = _
    rw [hhead]
    exact htimed.count
  · intro i t ht
    rw [List.getElem?_map] at ht
    obtain ⟨r, hr, rfl⟩ := Option.map_eq_some_iff.mp ht
    obtain ⟨info, hinfo, -, htime, -⟩ := hpreserved i r hr
    exact ⟨info, hinfo, htime⟩
  · show s.head.m_minTime = _
    rw [hhead]
    exact htimed.minTime
  · show s.head.m_maxTime = _
    rw [hhead]
    exact htimed.maxTime

end AppendingBlock

/-! ## The seek in a block -/

theorem AppendingBlock.seekTimeLoop_eq {b : AppendingBlock I} (timestamp : Nat)
    (h : (LogBlock.appending b).Timed ts) (hflag : increase flag = true) (k : Nat) {fuel : Nat}
    (hfuel : ts.length < fuel + k) (hk : k ≤ ts.length) {seekedId : Nat}
    (hseeked : (seekedId + 1) % 2 ^ 32 = k) :
    b.seekTimeLoop flag (fun t => decide (timestamp ≤ t)) fuel seekedId =
      .ok ((((LogBlock.appending b).timed ts).drop k).find? (NotBefore timestamp) |>.map
        Prod.fst) := by
  have hcount : b.m_recordCount = ts.length := h.count
  have hsize := h.size
  unfold maxRecordInBlock at hsize
  induction fuel generalizing k seekedId with
  | zero => omega
  | succ fuel ih =>
    unfold AppendingBlock.seekTimeLoop AppendingBlock.stepTo
    simp only [hflag, if_true, hseeked, hcount]
    by_cases hend : ts.length ≤ k
    · -- behind the last record
      rw [if_pos hend, List.drop_of_length_le (by
        unfold LogBlock.timed
        rw [List.length_mapIdx]
        exact hend)]
      rfl
    · rw [if_neg hend, Exec.ok_bind]
      have hlt : k < ts.length := by omega
      have ht := List.getElem?_eq_getElem hlt
      obtain ⟨d, hd, htime⟩ := h.records k _ ht
      rw [LogBlock.drop_timed ht]
      simp only [if_neg hend, hd, Exec.ok_bind, htime, List.find?_cons, NotBefore]
      by_cases hle : timestamp ≤ ts[k]
      · simp only [hle, decide_true, if_true]
        rfl
      · simp only [hle, decide_false, Bool.false_eq_true, if_false]
        exact ih (k + 1) (by omega) (by omega) (by omega)

theorem next_noFilter (b : SolidBlock) (hflag : increase flag = true) (it : SolidBlockIterator)
    {k : Nat} (hk : (it.m_seekedId + 1) % 2 ^ 32 = k) :
    SolidBlockIterator.next noPages b flag none it () =
      if k < b.head.m_recordCount then
        .ok (.OK, { it with
          m_seekedId := k, m_recordId := k, m_realRecordId := k + b.head.m_minRecordId }, ())
      else .ok (.ENDED, { it with m_seekedId := k, m_status := .ENDED }, ()) := by
  unfold SolidBlockIterator.next SolidBlockIterator.nextLoop SolidBlockIterator.advance
  simp only [hflag, if_true, hk, decide_eq_true_eq]
  split
  · rfl
  · rfl

/-- In a solid block the loop stops at the first record that is not before the time. -/
theorem solid_seekTimeLoop_eq {b : SolidBlock} (timestamp : Nat)
    (h : (LogBlock.solid b : LogBlock I).Timed ts) (hflag : increase flag = true) (k : Nat)
    {fuel : Nat} (hfuel : ts.length < fuel + k) (hk : k ≤ ts.length) (it : SolidBlockIterator)
    (hseeked : (it.m_seekedId + 1) % 2 ^ 32 = k) :
    ∃ ok it', SolidBlockIterator.seekTimeLoop noPages b flag none
        (fun t => decide (timestamp ≤ t)) fuel it () = .ok (ok, it', ()) ∧
      (if ok then some (⟨b.head.m_blockID, it'.m_recordId, it'.m_realRecordId⟩ : SeekPos)
        else none) =
        (((LogBlock.solid b : LogBlock I).timed ts).drop k |>.find? (NotBefore timestamp)).map
          Prod.fst := by
  have hcount : b.head.m_recordCount = ts.length := h.count
  have hsize := h.size
  unfold maxRecordInBlock at hsize
  induction fuel generalizing k it with
  | zero => omega
  | succ fuel ih =>
    unfold SolidBlockIterator.seekTimeLoop
    rw [next_noFilter b hflag it hseeked, hcount]
    by_cases hlt : k < ts.length
    · obtain ⟨t, ht⟩ : ∃ t, ts[k]? = some t := ⟨_, List.getElem?_eq_getElem hlt⟩
      rw [LogBlock.drop_timed ht]
      obtain ⟨info, hinfo, htime⟩ := h.records k t ht
      have hat : tableAt b.m_recordInfos k = .ok info := by
        unfold tableAt
        rw [hinfo]
      simp only [if_pos hlt, Exec.ok_bind, if_true, hat, htime, List.find?_cons, NotBefore]
      by_cases hle : timestamp ≤ t
      · simp only [hle, decide_true, if_true]
        refine ⟨_, _, rfl, ?_⟩
        simp only [if_true, Option.map_some, Nat.add_comm k]
        rfl
      · simp only [hle, decide_false, Bool.false_eq_true, if_false]
        exact ih (k + 1) (by omega) (by omega) _ (by simp only; omega)
    · -- behind the last record
      rw [if_neg hlt, List.drop_of_length_le (by
        unfold LogBlock.timed
        rw [List.length_mapIdx]
        omega)]
      exact ⟨_, _, rfl, rfl⟩

/-- A block answers with its first record that is not before the time. -/
theorem LogBlock.Timed.seek_eq (h : b.Timed ts) (hflag : increase flag = true)
    (hmin : b.m_minTime ≤ timestamp) :
    b.seekTimestamp flag timestamp =
      .ok (((b.timed ts).find? (NotBefore timestamp)).map Prod.fst) := by
  by_cases hmax : b.m_maxTime < timestamp
  · -- every record is before the target
    have hnone : (b.timed ts).find? (NotBefore timestamp) = none := by
      rw [List.find?_eq_none]
      intro x hx hnot
      obtain ⟨t, ht, hle⟩ := (LogBlock.exists_notBefore b ts timestamp).mp ⟨x, hx, hnot⟩
      have := le_foldl_max 0 (Or.inl ht)
      rw [h.maxTime] at hmax
      omega
    rw [hnone]
    cases b with
    | appending b =>
      have hmax' : b.m_maxTime < timestamp := hmax
      simp only [LogBlock.seekTimestamp, AppendingBlock.seekTimestamp, hmax', true_or, if_true]
      rfl
    | solid b =>
      have hmax' : b.head.m_maxTime < timestamp := hmax
      obtain ⟨it, hcreate⟩ := create_noFilter b flag
      simp only [LogBlock.seekTimestamp, hcreate, Exec.ok_bind, SolidBlockIterator.seekTimestamp,
        hmax', true_or, if_true]
      rfl
  · have hlen := h.count
    cases b with
    | appending b =>
      have hrange : ¬(b.m_maxTime < timestamp ∨ timestamp < b.m_minTime) := by
        have h₁ : ¬b.m_maxTime < timestamp := hmax
        have h₂ : b.m_minTime ≤ timestamp := hmin
        omega
      have hcount : b.m_recordCount = ts.length := hlen
      have hloop := AppendingBlock.seekTimeLoop_eq timestamp h hflag 0
        (show ts.length < (b.m_recordCount + 1) + 0 by omega) (Nat.zero_le _)
        (show (2 ^ 32 - 1 + 1) % 2 ^ 32 = 0 by decide)
      simp only [LogBlock.seekTimestamp, AppendingBlock.seekTimestamp, hrange, if_false, hflag,
        if_true]
      exact hloop
    | solid b =>
      have hrange : ¬(b.head.m_maxTime < timestamp ∨ timestamp < b.head.m_minTime) := by
        have h₁ : ¬b.head.m_maxTime < timestamp := hmax
        have h₂ : b.head.m_minTime ≤ timestamp := hmin
        omega
      have hcount : b.head.m_recordCount = ts.length := hlen
      obtain ⟨it, hcreate⟩ := create_noFilter b flag
      obtain ⟨ok, it', hloop, hres⟩ := solid_seekTimeLoop_eq timestamp h hflag 0
        (show ts.length < (b.head.m_recordCount + 1) + 0 by omega) (Nat.zero_le _)
        { it with
          m_status := .UNINIT, m_recordId := 2 ^ 32 - 1, m_seekedId := 2 ^ 32 - 1 }
        (show (2 ^ 32 - 1 + 1) % 2 ^ 32 = 0 by decide)
      simp only [LogBlock.seekTimestamp, hcreate, Exec.ok_bind, SolidBlockIterator.seekTimestamp,
        hrange, if_false, hflag, if_true, hloop]
      exact congrArg Except.ok hres

/-! ## The seek over the blocks -/

/-- A chain of blocks with the times of their records, in which the record ids of a block start
    behind those of the block before. -/
structure TimeChain (blocks : List (LogBlock I)) (times : List (List Nat)) : Prop where
  timed : List.Forall₂ LogBlock.Timed blocks times
  ids : blocks.Pairwise fun b b' => b.m_minRecordId + b.m_recordCount ≤ b'.m_minRecordId

def chainRecords (blocks : List (LogBlock I)) (times : List (List Nat)) : List (SeekPos × Nat) :=
  (List.zipWith LogBlock.timed blocks times).flatten

section

variable {blocks : List (LogBlock I)} {times : List (List Nat)}

theorem mem_chainRecords (h : List.Forall₂ LogBlock.Timed blocks times) {x : SeekPos × Nat}
    (hx : x ∈ chainRecords blocks times) :
    ∃ b ∈ blocks, b.m_minRecordId ≤ x.1.m_realRecordId ∧
      x.1.m_realRecordId < b.m_minRecordId + b.m_recordCount := by
  induction h with
  | nil => cases hx
  | @cons b ts blocks times hb _ ih =>
    simp only [chainRecords, List.zipWith_cons_cons, List.flatten_cons, List.mem_append] at hx
    rcases hx with hx | hx
    · obtain ⟨i, hi, hpos⟩ := LogBlock.mem_timed.mp hx
      obtain ⟨hlt, -⟩ := List.getElem?_eq_some_iff.mp hi
      have hcount := hb.count
      rw [hpos]
      exact ⟨b, List.mem_cons_self, by simp only; omega, by simp only; omega⟩
    · obtain ⟨b', hb', hrange⟩ := ih hx
      exact ⟨b', List.mem_cons_of_mem _ hb', hrange⟩

theorem LogBlock.sorted_timed (b : LogBlock I) (ts : List Nat) :
    (b.timed ts).Pairwise fun x y => x.1.m_realRecordId < y.1.m_realRecordId := by
  rw [List.pairwise_iff_getElem]
  intro i j hi hj hij
  simp only [LogBlock.timed, List.getElem_mapIdx]
  omega

theorem TimeChain.sorted (hC : TimeChain blocks times) :
    (chainRecords blocks times).Pairwise fun x y => x.1.m_realRecordId < y.1.m_realRecordId := by
  obtain ⟨htimed, hids⟩ := hC
  induction htimed with
  | nil => exact List.Pairwise.nil
  | @cons b ts blocks times hb htimed ih =>
    obtain ⟨hafter, hids⟩ := List.pairwise_cons.mp hids
    simp only [chainRecords, List.zipWith_cons_cons, List.flatten_cons]
    rw [List.pairwise_append]
    refine ⟨b.sorted_timed ts, ih hids, ?_⟩
    intro x hx y hy
    obtain ⟨i, hi, hpos⟩ := LogBlock.mem_timed.mp hx
    obtain ⟨hlt, -⟩ := List.getElem?_eq_some_iff.mp hi
    obtain ⟨b', hb', hle, -⟩ := mem_chainRecords htimed hy
    have := hafter b' hb'
    have hcount := hb.count
    rw [hpos]
    simp only
    omega

theorem seekTimestamp_mem (h : List.Forall₂ LogBlock.Timed blocks times)
    (hflag : increase flag = true) (timestamp : Nat) :
    ∃ r : Option (SeekPos × Nat),
      seekTimestamp blocks flag timestamp = .ok (r.map Prod.fst) ∧
      ∀ x ∈ r, x ∈ chainRecords blocks times := by
  induction h with
  | nil => exact ⟨none, rfl, by simp⟩
  | @cons b ts blocks times hb _ ih =>
    unfold seekTimestamp timestampBlock
    simp only [chainRecords, List.zipWith_cons_cons, List.flatten_cons, List.mem_append]
    by_cases hmin : timestamp < b.m_minTime
    · obtain ⟨r, hr, hmem⟩ := ih
      rw [if_pos hmin]
      exact ⟨r, hr, fun x hx => Or.inr (hmem x hx)⟩
    · rw [if_neg hmin]
      refine ⟨_, hb.seek_eq hflag (by omega), ?_⟩
      intro x hx
      exact Or.inl (List.mem_of_find?_eq_some hx)

theorem find?_chainRecords_eq_none (h : List.Forall₂ LogBlock.Timed blocks times) :
    (chainRecords blocks times).find? (NotBefore timestamp) = none ↔
      ∀ ts ∈ times, ∀ t ∈ ts, t < timestamp := by
  induction h with
  | nil => simp [chainRecords]
  | @cons b ts blocks times _ _ ih =>
    have hblock : (b.timed ts).find? (NotBefore timestamp) = none ↔ ∀ t ∈ ts, t < timestamp := by
      have h := (LogBlock.exists_notBefore b ts timestamp).not
      simpa [List.find?_eq_none] using h
    unfold chainRecords at ih ⊢
    rw [List.zipWith_cons_cons, List.flatten_cons, List.find?_append, Option.or_eq_none_iff,
      hblock, ih]
    simp

/-- Some record of the first block is to be found, and the block is not passed over. -/
def FirstBlockHas (blocks : List (LogBlock I)) (times : List (List Nat)) (timestamp : Nat) : Prop :=
  ∃ b ∈ blocks.head?, ∃ ts ∈ times.head?, b.m_minTime ≤ timestamp ∧ ∃ t ∈ ts, timestamp ≤ t

/-- An ascending seek over a chain positions on the first record that is not before the target,
    and fails if there is none, exactly when there is none or the first block has one and an
    `m_minTime` that is not behind the target. -/
theorem seekTimestamp_iff (hC : TimeChain blocks times) (hflag : increase flag = true)
    (timestamp : Nat) :
    (∃ r : Option (SeekPos × Nat),
      seekTimestamp blocks flag timestamp = .ok (r.map Prod.fst) ∧
      (chainRecords blocks times).FirstMatch (fun x => x.1.m_realRecordId)
        (NotBefore timestamp) r) ↔
      ((∀ ts ∈ times, ∀ t ∈ ts, t < timestamp) ∨ FirstBlockHas blocks times timestamp) := by
  simp only [List.firstMatch_iff hC.sorted]
  obtain ⟨htimed, hids⟩ := hC
  cases htimed with
  | nil =>
    refine iff_of_true ⟨none, rfl, rfl⟩ (Or.inl ?_)
    intro ts hts
    cases hts
  | @cons b ts blocks times hb htimed =>
    have hsplit : (chainRecords (b :: blocks) (ts :: times)).find? (NotBefore timestamp) =
        ((b.timed ts).find? (NotBefore timestamp)).or
          ((chainRecords blocks times).find? (NotBefore timestamp)) := by
      simp [chainRecords]
    by_cases hmin : b.m_minTime ≤ timestamp
    · -- only the first block is asked
      have hseek : seekTimestamp (b :: blocks) flag timestamp =
          .ok (((b.timed ts).find? (NotBefore timestamp)).map Prod.fst) := by
        unfold seekTimestamp timestampBlock
        rw [if_neg (by omega)]
        exact hb.seek_eq hflag hmin
      rw [hseek, hsplit]
      by_cases hhas : ∃ t ∈ ts, timestamp ≤ t
      · refine iff_of_true ?_ (Or.inr ⟨b, rfl, ts, rfl, hmin, hhas⟩)
        obtain ⟨x, hx⟩ := Option.isSome_iff_exists.mp (List.find?_isSome.mpr
          ((LogBlock.exists_notBefore b ts timestamp).mpr hhas))
        exact ⟨some x, by rw [hx], by rw [hx, Option.some_or]⟩
      · have hnone : (b.timed ts).find? (NotBefore timestamp) = none := by
          rw [List.find?_eq_none]
          intro x hx hnot
          exact hhas ((LogBlock.exists_notBefore b ts timestamp).mp ⟨x, hx, hnot⟩)
        rw [hnone, Option.none_or, Option.map_none]
        constructor
        · rintro ⟨r, hr, rfl⟩
          left
          have hr := Option.map_eq_none_iff.mp (Except.ok.inj hr).symm
          intro ts' hts' t ht
          rcases List.mem_cons.mp hts' with rfl | hts'
          · by_contra hge
            exact hhas ⟨t, ht, by omega⟩
          · exact (find?_chainRecords_eq_none htimed).mp hr ts' hts' t ht
        · rintro (hall | ⟨b', hb', ts', hts', -, hhas'⟩)
          · refine ⟨none, rfl, Eq.symm ?_⟩
            exact (find?_chainRecords_eq_none htimed).mpr fun ts' hts' =>
              hall ts' (List.mem_cons_of_mem _ hts')
          · cases hts'
            exact absurd hhas' hhas
    · -- the first block is passed over, and has a record to find
      have hmem := hb.minTime_mem (by omega)
      apply iff_of_false
      · rintro ⟨r, hr, rfl⟩
        obtain ⟨x, hx⟩ := Option.isSome_iff_exists.mp (List.find?_isSome.mpr
          ((LogBlock.exists_notBefore b ts timestamp).mpr ⟨_, hmem, by omega⟩))
        rw [hsplit, hx, Option.some_or] at hr
        obtain ⟨r', hr', hmem'⟩ := seekTimestamp_mem htimed hflag timestamp
        have hseek : seekTimestamp (b :: blocks) flag timestamp =
            seekTimestamp blocks flag timestamp := by
          unfold seekTimestamp
          rw [timestampBlock, if_pos (by omega)]
        rw [hseek, hr'] at hr
        obtain ⟨y, hy, hpos⟩ := Option.map_eq_some_iff.mp (Except.ok.inj hr)
        -- the seek went to a later block
        obtain ⟨b', hb', hle, -⟩ := mem_chainRecords htimed (hmem' y hy)
        obtain ⟨i, hi, hx'⟩ := LogBlock.mem_timed.mp (List.mem_of_find?_eq_some hx)
        obtain ⟨hlt, -⟩ := List.getElem?_eq_some_iff.mp hi
        have hafter := (List.pairwise_cons.mp hids).1 b' hb'
        have hcount := hb.count
        rw [hpos, hx'] at hle
        simp only at hle
        omega
      · rintro (hall | ⟨b', hb', -, -, hmin', -⟩)
        · have := hall ts List.mem_cons_self _ hmem
          omega
        · cases hb'
          exact hmin hmin'

end

/-! ## Two blocks -/

/-- A block with records of the times `ts`. -/
def timedBlock (blockId minRecordId : Nat) (ts : List Nat) : SolidBlock :=
  let b := tableBlock blockId minRecordId (ts.map fun _ => 0)
  { b with
    head := { b.head with
      m_minTime := (ts.find? (· ≠ 0)).getD 0
      m_maxTime := ts.foldl max 0 }
    m_recordInfos := ts.map fun t => { timestamp := t } }

theorem timed_timedBlock (blockId minRecordId : Nat) {ts : List Nat}
    (hsize : ts.length ≤ maxRecordInBlock) :
    (LogBlock.solid (timedBlock blockId minRecordId ts) : LogBlock noIndex).Timed ts where
  size := hsize
  count := List.length_map _
  records := by
    intro i t ht
    refine ⟨{ timestamp := t }, ?_, rfl⟩
    show (ts.map fun t => ({ timestamp := t } : RecordGeneralInfo))[i]? = _
    rw [List.getElem?_map, ht]
    rfl
  minTime := rfl
  maxTime := rfl

def timedBlocks : List (LogBlock noIndex) :=
  [.solid (timedBlock 1 1 [20, 10]), .solid (timedBlock 2 3 [30, 40])]

theorem timeChain_timedBlocks : TimeChain timedBlocks [[20, 10], [30, 40]] where
  timed := .cons (timed_timedBlock 1 1 (by decide))
    (.cons (timed_timedBlock 2 3 (by decide)) .nil)
  ids := by decide

/-- A target in the first block. -/
theorem seekTimestamp_first_block :
    ∃ r : Option (SeekPos × Nat), seekTimestamp timedBlocks 0 20 = .ok (r.map Prod.fst) ∧
      (chainRecords timedBlocks [[20, 10], [30, 40]]).FirstMatch (fun x => x.1.m_realRecordId)
        (NotBefore 20) r := by
  apply (seekTimestamp_iff timeChain_timedBlocks (by decide) 20).mpr
  exact Or.inr ⟨_, rfl, _, rfl, by decide, 20, by decide, by decide⟩

/-- A target in the second block is not found: the first block is asked, and has no record for
    it. -/
theorem seekTimestamp_second_block :
    (chainRecords timedBlocks [[20, 10], [30, 40]]).FirstMatch (fun x => x.1.m_realRecordId)
      (NotBefore 35) (some (⟨2, 1, 4⟩, 40)) ∧
    seekTimestamp timedBlocks 0 35 = .ok none := by
  constructor
  · rw [List.firstMatch_iff timeChain_timedBlocks.sorted]
    rfl
  · rfl

end DBStream.Native
