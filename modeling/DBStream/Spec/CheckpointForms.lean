import DBStream.Spec.BlockForms
import DBStream.Spec.BlockSummary
import DBStream.Spec.CheckpointSeek

/-!
# Seeks by log offset in the two forms of a block

One event of the log can give several records, so the offsets of a block go up, but not strictly.
Both forms of a block search in the same way, and stop at the first record they see that has the
target as its offset.  `seeksAlike_iff` says when that is the one to find.
-/

namespace DBStream.Native

open AppendingBlock

/-- From both forms of a block the seek goes to the record to find. -/
def SeeksAlike {I : IndexImpl} (b : AppendingBlock I) (s : SolidBlock) (flag logOffset : Nat)
    (os : List Nat) : Prop :=
  ∀ p, BoundAt flag os logOffset p →
    (LogBlock.appending b).seekCheckpoint flag logOffset =
      .ok (some ⟨b.m_blockID, p, b.m_minRecordId + p⟩) ∧
    (LogBlock.solid s : LogBlock I).seekCheckpoint flag logOffset =
      .ok (some ⟨b.m_blockID, p, b.m_minRecordId + p⟩)

/-- If records have the target as their offset, the halving comes to the first of them first. -/
def HitsFirst (os : List Nat) (logOffset : Nat) : Prop :=
  offsetsBelow os logOffset < offsetsUpTo os logOffset →
    HitsAt os logOffset (offsetsBelow os logOffset)

section

variable {os : List Nat} {flag logOffset : Nat}

theorem boundAt_offsetsBelow (hos : os.Pairwise (· ≤ ·)) (hflag : increase flag = true)
    (hlt : offsetsBelow os logOffset < os.length) :
    BoundAt flag os logOffset (offsetsBelow os logOffset) := by
  refine ⟨hlt, ?_⟩
  rw [if_pos hflag]
  refine ⟨?_, ?_⟩
  · have := (lt_offsetsBelow logOffset hos hlt).not.mp (Nat.lt_irrefl _)
    omega
  · intro j hj
    exact (lt_offsetsBelow logOffset hos (by omega)).mp hj

private theorem boundAt_offsetsUpTo (hos : os.Pairwise (· ≤ ·)) (hflag : increase flag ≠ true)
    (hpos : 0 < offsetsUpTo os logOffset) :
    BoundAt flag os logOffset (offsetsUpTo os logOffset - 1) := by
  have hle := offsetsUpTo_le os logOffset
  refine ⟨by omega, ?_⟩
  rw [if_neg hflag]
  refine ⟨(lt_offsetsUpTo logOffset hos (by omega)).mp (by omega), ?_⟩
  intro j hj hlt
  have := (lt_offsetsUpTo logOffset hos hlt).not.mp (by omega)
  omega

theorem BoundAt.exists_between (flag : Nat) (hos : os.Pairwise (· ≤ ·)) (hpos : 0 < os.length)
    (hfirst : os.getD 0 0 ≤ logOffset) (hlast : logOffset ≤ os.getD (os.length - 1) 0) :
    ∃ p, BoundAt flag os logOffset p := by
  by_cases hflag : increase flag = true
  · have hlt : offsetsBelow os logOffset ≤ os.length - 1 := by
      by_contra hgt
      have := (lt_offsetsBelow logOffset hos
        (show os.length - 1 < os.length by omega)).mp (by omega)
      omega
    exact ⟨_, boundAt_offsetsBelow hos hflag (by omega)⟩
  · exact ⟨_, boundAt_offsetsUpTo hos hflag ((lt_offsetsUpTo logOffset hos hpos).mpr hfirst)⟩

end

section

variable {I : IndexImpl} {b : AppendingBlock I} {s : SolidBlock} {os : List Nat}
  {flag logOffset : Nat}

/-- The two forms differ only where the search begins at the first record and id 0. -/
theorem seeksAlike_of_hasOffsets (hb : (LogBlock.appending b).HasOffsets os)
    (hs : (LogBlock.solid s : LogBlock I).HasOffsets os) (hhead : s.head = b.solidHead)
    (hcovers : (LogBlock.appending b).Covers logOffset) :
    SeeksAlike b s flag logOffset os ↔
      increase flag = true ∧ b.m_minRecordId = 0 ∧ HitsFirst os logOffset := by
  have hcovers' : (LogBlock.solid s : LogBlock I).Covers logOffset := by
    show s.head.m_minLogOffset ≤ logOffset ∧ logOffset ≤ s.head.m_maxLogOffset
    rw [hhead]
    exact hcovers
  have hid : s.head.m_blockID = b.m_blockID := by
    rw [hhead]
    rfl
  have hmin' : s.head.m_minRecordId = b.m_minRecordId := by
    rw [hhead]
    rfl
  have hlast : logOffset ≤ os.getD (os.length - 1) 0 := by
    rw [← hb.maxLogOffset]
    exact hcovers.2
  have hbelow : offsetsBelow os logOffset < os.length := by
    by_contra hge
    have hpos := hb.nonempty
    have := (lt_offsetsBelow logOffset hb.sorted
      (show os.length - 1 < os.length by omega)).mp (by omega)
    omega
  obtain ⟨q, hq, hsolid⟩ := solid_seekCheckpoint hs hcovers' flag
  rw [hid, hmin'] at hsolid
  constructor
  · intro halike
    obtain ⟨p, hp⟩ := BoundAt.exists_between flag hb.sorted hb.nonempty
      (Nat.le_trans hb.first_le hcovers.1) hlast
    obtain ⟨hseek, hseek'⟩ := halike p hp
    obtain ⟨hflag, hmin⟩ := seekable_of_seekCheckpoint hb hp hseek
    refine ⟨hflag, hmin, ?_⟩
    intro hrun
    -- the solid block has gone to a hit, and that is the record to find
    obtain rfl : q = p := by
      rw [hsolid] at hseek'
      exact congrArg SeekPos.m_recordId (Option.some.inj (Except.ok.inj hseek'))
    rw [(boundAt_offsetsBelow hb.sorted hflag hbelow).unique hp]
    rcases hq with hq | ⟨hnone, -⟩
    · exact hq
    · omega
  · rintro ⟨hflag, hmin, hfirst⟩ p hp
    obtain ⟨q', hq', happending⟩ := appending_seekCheckpoint hb hcovers hflag hmin
    obtain rfl := hq.unique hq'
    have hqp : q = p := by
      rcases hq with hq | ⟨-, hq⟩
      · have hfirst := hq'.unique (.inl (hfirst hq.1))
        rw [hfirst]
        exact (boundAt_offsetsBelow hb.sorted hflag hbelow).unique hp
      · exact hq.unique hp
    rw [← hqp]
    exact ⟨happending, hsolid⟩

end

section

variable {I : IndexImpl} {Γ : MetaDataCollection I} {b : AppendingBlock I} {acc : List Record}
  {blockId bufSize startID : Nat} {flag₀ : BlockFlag} {flushSize flushPeriod : Int}

private theorem getD_logOffsetsOf {i : Nat} {r : Record} (hr : acc[i]? = some r) :
    (logOffsetsOf acc).getD i 0 = RecordHead.logOffset r.data := by
  unfold logOffsetsOf
  rw [List.getD_eq_getElem?_getD, List.getElem?_map, hr]
  rfl

theorem hasOffsets_of_run
    (hrun : Run Γ (RowOp Γ) (create blockId flag₀ bufSize flushSize flushPeriod startID) b acc)
    (hne : acc ≠ []) : (LogBlock.appending b.finish).HasOffsets (logOffsetsOf acc) := by
  have hb := hasRecords_of_run hrun
  have hlen : (logOffsetsOf acc).length = acc.length := List.length_map _
  have hsize := hb.size
  rw [hb.count] at hsize
  refine ⟨?_, ?_, ?_, hrun.sorted.1, ?_, hrun.minLogOffset, ?_⟩
  · rw [hlen]
    exact List.length_pos_of_ne_nil hne
  · rw [hlen]
    exact hsize
  · rw [hlen]
    exact hb.count
  · intro i hi
    rw [hlen] at hi
    have hr := List.getElem?_eq_getElem hi
    refine ⟨_, hb.getRecord i _ hr, ?_⟩
    rw [getD_logOffsetsOf hr]
    exact RecordHead.logOffset_setRecordId (acc[i]).head_le _
  · show b.m_maxLogOffset = _
    rw [hrun.maxLogOffset, List.getLast?_eq_getElem?, List.getD_eq_getElem?_getD]

theorem solid_hasOffsets_of_run {s : SolidBlock}
    (hrun : Run Γ (RowOp Γ) (create blockId flag₀ bufSize flushSize flushPeriod startID) b acc)
    (hs : b.finish.toSolidBlock = .ok s) (hne : acc ≠ []) :
    (LogBlock.solid s : LogBlock I).HasOffsets (logOffsetsOf acc) := by
  have hb := hasOffsets_of_run hrun hne
  have hsolid := solid_hasRecords_of_run hrun hs
  have hlen : (logOffsetsOf acc).length = acc.length := List.length_map _
  refine ⟨hb.nonempty, hb.size, ?_, hb.sorted, ?_, ?_, ?_⟩
  · rw [hlen]
    exact hsolid.recordCount
  · show s.m_recordInfos.map (·.logOffset) = logOffsetsOf acc
    apply List.ext_getElem?
    intro i
    unfold logOffsetsOf
    rw [List.getElem?_map, List.getElem?_map]
    cases hr : acc[i]? with
    | none =>
      have hge : acc.length ≤ i := List.getElem?_eq_none_iff.mp hr
      rw [List.getElem?_eq_none (by rw [hsolid.infos, hsolid.count]; exact hge)]
      rfl
    | some r =>
      obtain ⟨info, hinfo, -, -, hlog, -⟩ := hsolid.preserved i r hr
      rw [hinfo]
      exact congrArg some hlog
  · show s.head.m_minLogOffset = _
    rw [hsolid.head]
    exact hb.minLogOffset
  · show s.head.m_maxLogOffset = _
    rw [hsolid.head]
    exact hb.maxLogOffset

end

/-- In every run whose records are row changes on addressable places: for a target between the
    bounds of the block, the seeks in the block and in the solid block it is converted to both go to
    the record to find exactly when they ascend, the first id of the block is 0 and the search hits
    the first record with the target as its offset. -/
theorem seeksAlike_iff {I : IndexImpl} (Γ : MetaDataCollection I) (blockId : Nat)
    (flag₀ : BlockFlag) (bufSize : Nat) (flushSize flushPeriod : Int) (startID : Nat)
    {b : AppendingBlock I} {acc : List Record}
    (hrun : Run Γ (RowOp Γ) (create blockId flag₀ bufSize flushSize flushPeriod startID) b acc)
    {s : SolidBlock} (hs : b.finish.toSolidBlock = .ok s) (flag logOffset : Nat)
    (hrange : b.m_minLogOffset ≤ logOffset ∧ logOffset ≤ b.m_maxLogOffset) :
    SeeksAlike b.finish s flag logOffset (logOffsetsOf acc) ↔
      acc = [] ∨
        increase flag = true ∧ b.m_minRecordId = 0 ∧ HitsFirst (logOffsetsOf acc) logOffset := by
  by_cases hne : acc = []
  · -- there is nothing to find
    subst hne
    refine iff_of_true ?_ (.inl rfl)
    intro p hp
    exact absurd hp.1 (Nat.not_lt_zero p)
  · rw [seeksAlike_of_hasOffsets (hasOffsets_of_run hrun hne) (solid_hasOffsets_of_run hrun hs hne)
      (toSolidBlock_head hs) hrange, or_iff_right hne]
    rfl

/-! ## Two rows of one event, and a third row -/

def eventRow (logOffset : Nat) : Record :=
  .build 0 logOffset 0 0 (LE.bytes 8 65536 ++ [1, 0, 0, 0]) (by
    simp only [recordHeadSize, List.length_append, LE.length_bytes, List.length_cons,
      List.length_nil]
    omega)

theorem logOffset_eventRow {logOffset : Nat} (h : logOffset < 2 ^ 64) :
    RecordHead.logOffset (eventRow logOffset).data = logOffset :=
  Record.logOffset_build _ _ _ _ _ _ h

def eventLanding (b : AppendingBlock noIndex) (logOffset : Nat) : Nat × Nat :=
  b.landing (twoTables.metaOf (eventRow logOffset).data) (eventRow logOffset).data.length

private theorem rowOp_eventRow {b : AppendingBlock noIndex} {logOffset : Nat} {x : Nat × Nat}
    (h : eventLanding b logOffset = x) (hfits : RecordPosition.Fits x.1 x.2)
    (st : AppendingBlockStaus) : RowOp twoTables b (.append (eventRow logOffset) quietIo) st := by
  subst h
  refine ⟨?_, .inr (.inr hfits)⟩
  intro r io heq
  cases heq
  exact decide_eq_true (Nat.zero_le _)

def eventRows : List Record := [eventRow 1000, eventRow 1000, eventRow 2000]

theorem logOffsetsOf_eventRows : logOffsetsOf eventRows = [1000, 1000, 2000] := by
  simp only [logOffsetsOf, eventRows, List.map_cons, List.map_nil]
  rw [logOffset_eventRow (by decide), logOffset_eventRow (by decide)]

private theorem boundAt_eventRows {logOffset : Nat}
    (h : offsetsBelow [1000, 1000, 2000] logOffset < 3) :
    BoundAt 0 (logOffsetsOf eventRows) logOffset (offsetsBelow [1000, 1000, 2000] logOffset) := by
  rw [logOffsetsOf_eventRows]
  exact boundAt_offsetsBelow (by decide) rfl h

set_option maxRecDepth 4096 in
private theorem run_eventRows :
    ∃ b : AppendingBlock noIndex, ∃ s,
      Run twoTables (RowOp twoTables) smallBlock b eventRows ∧
      b.finish.toSolidBlock = .ok s ∧ b.m_minRecordId = 0 ∧ b.m_minLogOffset = 1000 ∧
      b.m_maxLogOffset = 2000 := by
  have hcall : (smallBlock.step twoTables (.append (eventRow 1000) quietIo) >>= fun x₁ =>
      x₁.2.step twoTables (.append (eventRow 1000) quietIo) >>= fun x₂ =>
      x₂.2.step twoTables (.append (eventRow 2000) quietIo) >>= fun x₃ =>
      x₃.2.finish.toSolidBlock >>= fun _ =>
      .ok (x₁.1, eventLanding x₁.2 1000, x₂.1, eventLanding x₂.2 2000, x₃.1,
        x₃.2.m_minRecordId, x₃.2.m_minLogOffset, x₃.2.m_maxLogOffset)) =
      .ok (.B_OK, (1, 50), .B_OK, (1, 100), .B_OK, 0, 1000, 2000) := by rfl
  obtain ⟨⟨st₁, b₁⟩, hstep₁, hrest⟩ := Exec.of_bind hcall
  obtain ⟨⟨st₂, b₂⟩, hstep₂, hrest⟩ := Exec.of_bind hrest
  obtain ⟨⟨st₃, b₃⟩, hstep₃, hrest⟩ := Exec.of_bind hrest
  obtain ⟨s, hs, hret⟩ := Exec.of_bind hrest
  simp only [Except.ok.injEq, Prod.mk.injEq] at hret
  obtain ⟨rfl, hland₂, rfl, hland₃, rfl, hmin, hlo, hhi⟩ := hret
  have hland₁ : eventLanding smallBlock 1000 = (1, 0) := by rfl
  have hrun₁ := Run.nil.snoc (rowOp_eventRow hland₁ (by decide) _) hstep₁
  have hrun₂ := hrun₁.snoc (rowOp_eventRow hland₂ (by decide) _) hstep₂
  have hrun₃ := hrun₂.snoc (rowOp_eventRow hland₃ (by decide) _) hstep₃
  exact ⟨b₃, s, hrun₃, hs, hmin, hlo, hhi⟩

/-- The offset of the third row. -/
theorem seeksAlike_iff_third :
    ∃ b : AppendingBlock noIndex, ∃ s,
      Run twoTables (RowOp twoTables) smallBlock b eventRows ∧ b.finish.toSolidBlock = .ok s ∧
      BoundAt 0 (logOffsetsOf eventRows) 2000 2 ∧
      SeeksAlike b.finish s 0 2000 (logOffsetsOf eventRows) := by
  obtain ⟨b, s, hrun, hs, hmin, hlo, hhi⟩ := run_eventRows
  refine ⟨b, s, hrun, hs, boundAt_eventRows (show offsetsBelow _ 2000 < 3 by decide), ?_⟩
  rw [seeksAlike_iff twoTables 1 { appending := true } (2 ^ 20) 0 0 0 hrun hs 0 2000
    (by rw [hlo, hhi]; decide)]
  rw [logOffsetsOf_eventRows]
  exact .inr ⟨rfl, hmin, fun _ => by decide⟩

/-- The offset of the first two rows: both seeks go to the second. -/
theorem seek_second_row :
    ∃ b : AppendingBlock noIndex, ∃ s,
      Run twoTables (RowOp twoTables) smallBlock b eventRows ∧ b.finish.toSolidBlock = .ok s ∧
      BoundAt 0 (logOffsetsOf eventRows) 1000 0 ∧
      (LogBlock.appending b.finish).seekCheckpoint 0 1000 =
        .ok (some ⟨b.finish.m_blockID, 1, b.finish.m_minRecordId + 1⟩) ∧
      (LogBlock.solid s : LogBlock noIndex).seekCheckpoint 0 1000 =
        .ok (some ⟨s.head.m_blockID, 1, s.head.m_minRecordId + 1⟩) ∧
      ¬ SeeksAlike b.finish s 0 1000 (logOffsetsOf eventRows) := by
  obtain ⟨b, s, hrun, hs, hmin, hlo, hhi⟩ := run_eventRows
  have hne : eventRows ≠ [] := List.cons_ne_nil _ _
  have hb := hasOffsets_of_run hrun hne
  have hsolid := solid_hasOffsets_of_run hrun hs hne
  have hfirst : BoundAt 0 (logOffsetsOf eventRows) 1000 0 :=
    boundAt_eventRows (show offsetsBelow _ 1000 < 3 by decide)
  have hcovers : (LogBlock.appending b.finish).Covers 1000 := by
    show b.m_minLogOffset ≤ 1000 ∧ 1000 ≤ b.m_maxLogOffset
    rw [hlo, hhi]
    decide
  have hcovers' : (LogBlock.solid s : LogBlock noIndex).Covers 1000 := by
    show s.head.m_minLogOffset ≤ 1000 ∧ 1000 ≤ s.head.m_maxLogOffset
    rw [toSolidBlock_head hs]
    exact hcovers
  -- the search hits the second row
  have hsecond : SeekPlace 0 (logOffsetsOf eventRows) 1000 1 := by
    rw [logOffsetsOf_eventRows]
    exact .inl (by decide)
  obtain ⟨p, hp, hseek⟩ := appending_seekCheckpoint hb hcovers (show increase 0 = true from rfl)
    hmin
  obtain ⟨q, hq, hseek'⟩ := solid_seekCheckpoint hsolid hcovers' 0
  rw [hp.unique hsecond] at hseek
  rw [hq.unique hsecond] at hseek'
  refine ⟨b, s, hrun, hs, hfirst, hseek, hseek', ?_⟩
  intro halike
  have hwrong := hseek.symm.trans (halike 0 hfirst).1
  cases hwrong

end DBStream.Native
