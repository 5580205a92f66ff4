import DBStream.Spec.ClusterLogReturns

/-!
# Opening a log file again

`recovery` and `load` rebuild the blocks of a file from what is on disk, but none of their paths sets
`m_logIndex`: the object keeps the 0.0 that its constructor gave it.
-/

namespace DBStream.Native.CLUSTER.LogFile

variable {cfg : LogConfig} {f f' : LogFile} {readOnly : Bool} {junk : Nat → UInt8} {fuel : Nat}

/-! ## `m_logIndex` -/

/-- What reading a file keeps of its object: the last index, and the blocks it has. -/
structure Keeps (f f' : LogFile) : Prop where
  logIndex : f'.m_logIndex = f.m_logIndex
  count : f.m_blockCount ≤ f'.m_blockCount

theorem Keeps.refl (f : LogFile) : f.Keeps f := ⟨rfl, le_rfl⟩

theorem Keeps.trans {g : LogFile} (h : f.Keeps g) (h' : g.Keeps f') : f.Keeps f' :=
  ⟨h'.logIndex.trans h.logIndex, h.count.trans h'.count⟩

theorem endRecord_keeps {pos : Nat} {head : Option (List UInt8)}
    (h : f.endRecord readOnly pos = .ok (f', head)) : f.Keeps f' := by
  rw [endRecord] at h
  split at h
  · cases h
  · cases h
    exact ⟨rfl, le_rfl⟩

theorem readRecordHead_keeps {fd dataFileSize pos : Nat} {head : Option (List UInt8)}
    (h : f.readRecordHead readOnly fd dataFileSize pos = .ok (f', head)) : f.Keeps f' := by
  rw [readRecordHead] at h
  dsimp only at h
  split at h
  · exact endRecord_keeps h
  · split at h
    · cases h
    · split at h
      · exact endRecord_keeps h
      · cases h
        exact .refl f

theorem readBody_keeps {r r' : BlockRead} (h : readBody r = some (.ok r')) : r.f.Keeps r'.f := by
  rw [readBody] at h
  dsimp only at h
  split at h
  · cases h
  · split at h
    · cases h
    · split at h
      · cases h
      · split at h
        · cases h
        · cases h
          exact .refl r.f

theorem readBlock_keeps {dataFileSize : Nat} {r r' : BlockRead}
    (h : readBlock readOnly dataFileSize fuel r = some (.ok r')) : r.f.Keeps r'.f := by
  induction fuel generalizing r with
  | zero => cases h
  | succ fuel ih =>
    obtain ⟨r₁, hbody, h⟩ := dsReturnIfFailed_eq_ok.mp h
    have hread := readBody_keeps hbody
    split at h
    · cases h
      exact hread
    · obtain ⟨⟨f₁, head⟩, hhead, h⟩ := dsReturnIfFailed_eq_ok.mp h
      replace hread := hread.trans (readRecordHead_keeps (Option.some.inj hhead))
      cases head with
      | none =>
        cases h
        exact hread
      | some head =>
        dsimp only at h
        split at h
        · cases h
          exact hread
        · exact hread.trans (ih h)

private theorem addRead_keeps {r : BlockRead} {idx : Index} (h : addRead cfg r idx = some f') :
    r.f.Keeps f' := by
  obtain ⟨blocks, -, h⟩ := Option.bind_eq_some_iff.mp h
  split at h
  · cases h
    exact ⟨rfl, Nat.le_succ _⟩
  · cases h

theorem readBlocks_keeps {dataFileSize fd pos : Nat}
    (h : readBlocks cfg readOnly junk dataFileSize fuel f fd pos = some (.ok f')) : f.Keeps f' := by
  induction fuel generalizing f fd pos with
  | zero => cases h
  | succ fuel ih =>
    rw [readBlocks] at h
    split at h
    · obtain ⟨⟨f₁, head⟩, hhead, h⟩ := dsReturnIfFailed_eq_ok.mp h
      have hread := readRecordHead_keeps (Option.some.inj hhead)
      cases head with
      | none =>
        cases h
        exact hread
      | some head =>
        obtain ⟨r, hblock, h⟩ := dsReturnIfFailed_eq_ok.mp h
        split at h
        · cases h
        · next f₂ hadd =>
          exact ((hread.trans (readBlock_keeps hblock)).trans (addRead_keeps hadd)).trans (ih h)
    · cases h
      exact .refl _

/-- With a block of the index file, the recovery does not get past its end. -/
theorem recoveryIndex_no_blocks {offset dataFileSize : Nat}
    (h : f.recoveryIndexFromLastBlock cfg readOnly junk fuel offset dataFileSize = some (.ok f')) :
    f.m_blockCount = 0 ∧ f'.m_logIndex = f.m_logIndex := by
  obtain ⟨f₁, hread, h⟩ := dsReturnIfFailed_eq_ok.mp h
  obtain ⟨hsame, hcount⟩ := readBlocks_keeps hread
  split at h
  · cases h
  · next hnone =>
    cases h
    exact ⟨Nat.eq_zero_of_le_zero (hcount.trans (Nat.not_lt.mp hnone)), hsame⟩

theorem readIndex_logIndex (h : f.readIndex cfg = some f') : f'.m_logIndex = f.m_logIndex := by
  rw [readIndex] at h
  split at h
  · cases h
    rfl
  · dsimp only at h
    split at h
    · cases h
      rfl
    · cases h

theorem loadIndex_logIndex (h : f.loadIndex cfg readOnly junk fuel = some (.ok f')) :
    f'.m_logIndex = f.m_logIndex := by
  obtain ⟨f₁, hindex, h⟩ := Option.bind_eq_some_iff.mp h
  obtain ⟨blocks, -, h⟩ := Option.bind_eq_some_iff.mp h
  rw [← readIndex_logIndex hindex]
  split at h
  · split at h
    · exact (recoveryIndex_no_blocks h).2
    · cases h
  · obtain ⟨b, -, h⟩ := Option.bind_eq_some_iff.mp h
    split at h
    · cases h
      rfl
    · exact (recoveryIndex_no_blocks h).2

theorem load_logIndex (h : f.load cfg junk fuel = some (.ok f')) : f'.m_logIndex = f.m_logIndex :=
  loadIndex_logIndex (f := f.allocBlocks) h

theorem useLastBlock_logIndex (h : f.useLastBlock = some (.ok f')) : f'.m_logIndex = f.m_logIndex := by
  rw [useLastBlock] at h
  split at h
  · cases h
    rfl
  · obtain ⟨blocks, -, h⟩ := Option.bind_eq_some_iff.mp h
    obtain ⟨b, -, h⟩ := Option.bind_eq_some_iff.mp h
    split at h
    · cases h
    · cases h
      rfl

private theorem recovery_logIndex (h : f.recovery cfg junk fuel = some (.ok f')) :
    f'.m_logIndex = f.m_logIndex := by
  obtain ⟨f₁, hinfo, h⟩ := dsReturnIfFailed_eq_ok.mp h
  obtain ⟨f₂, hload, h⟩ := dsReturnIfFailed_eq_ok.mp h
  have hsame : f₁.m_logIndex = f.m_logIndex := by
    split at hinfo
    · rw [readMetaInfo] at hinfo
      split at hinfo
      · cases hinfo
      · cases hinfo
        rfl
    · cases hinfo
      rfl
  rw [useLastBlock_logIndex h, loadIndex_logIndex hload]
  exact hsame

/-! ## Files that appends fill -/

variable {e : LogEntryRpcBase} {es : List LogEntryRpcBase} {fileId : Nat} {p q : LogIndexInfo}

theorem storeInNewBlock_logIndex (h : f.storeInNewBlock cfg e = some (.ok f')) :
    f'.m_logIndex = e.logIndex := by
  obtain ⟨g, -, h⟩ := dsReturnIfFailed_eq_ok.mp h
  cases h
  rfl

theorem append_logIndex (h : f.append cfg e = some (.ok f')) :
    f.m_logIndex = e.prevRecordLogIndex ∧ f'.m_logIndex = e.logIndex := by
  by_cases hprev : f.m_logIndex = e.prevRecordLogIndex
  · refine ⟨hprev, ?_⟩
    rw [append, if_neg (not_not_intro hprev)] at h
    split at h
    · cases h
    · rw [_append] at h
      split at h
      · exact storeInNewBlock_logIndex h
      · obtain ⟨⟨id, b⟩, -, h⟩ := Option.bind_eq_some_iff.mp h
        dsimp only at h
        split at h
        · split at h
          · cases h
          · exact storeInNewBlock_logIndex h
        · obtain ⟨b', -, h⟩ := Option.bind_eq_some_iff.mp h
          cases h
          rfl
  · rw [append_of_ne hprev] at h
    cases h

/-- A file and the entries that it has accepted since it was created. -/
inductive Fills (cfg : LogConfig) (fileId : Nat) (p q : LogIndexInfo) :
    LogFile → List LogEntryRpcBase → Prop
  | create : Fills cfg fileId p q (create fileId p q) []
  | append {f f' : LogFile} {es : List LogEntryRpcBase} {e : LogEntryRpcBase}
      (h : Fills cfg fileId p q f es) (he : e.Proper) (happend : f.append cfg e = some (.ok f')) :
      Fills cfg fileId p q f' (es ++ [e])

theorem Fills.lt (h : Fills cfg fileId p q f es) :
    p ≤ f.m_logIndex ∧ ∀ e ∈ es, p < e.logIndex := by
  induction h with
  | create => exact ⟨le_rfl, fun e he => nomatch he⟩
  | append _ he happend ih =>
    obtain ⟨hle, hall⟩ := ih
    obtain ⟨hprev, hlast⟩ := append_logIndex happend
    have hlt := hle.trans_lt (hprev.trans_lt he.prev_lt)
    refine ⟨hlast ▸ hlt.le, ?_⟩
    intro e' he'
    rcases List.mem_append.mp he' with he' | he'
    · exact hall e' he'
    · rwa [List.mem_singleton.mp he']

/-! ## Restored files -/

/-- The entries from a place on that a file of this length has completely. -/
def complete (length : Nat) : Nat → List LogEntryRpcBase → List LogEntryRpcBase
  | _, [] => []
  | pos, e :: es => if pos + e.size ≤ length then e :: complete length (pos + e.size) es else []

private theorem complete_sublist {length pos : Nat} : (complete length pos es).Sublist es := by
  induction es generalizing pos with
  | nil => exact .slnil
  | cons e es ih =>
    rw [complete]
    split
    · exact ih.cons_cons e
    · exact List.nil_sublist _

/-- The blocks of a file hold these entries from a place on. -/
inductive Holds (f : LogFile) : Nat → List Block → List LogEntryRpcBase → Prop
  | nil (pos : Nat) : Holds f pos [] []
  | cons {pos : Nat} {b : Block} {e : LogEntryRpcBase} {es rest : List LogEntryRpcBase}
      {blocks : List Block} (hidx : b.idx = ⟨pos, e.logIndex⟩)
      (hdata : f.loadBlock b = .ok ((e :: es).flatMap LogEntryRpcBase.bytes))
      (h : Holds f (pos + b.size) blocks rest) : Holds f pos (b :: blocks) (e :: es ++ rest)

/-- A file that was opened again has these entries, and goes on behind the last of them. -/
structure Restored (f : LogFile) (cfg : LogConfig) (p : LogIndexInfo) (es : List LogEntryRpcBase) :
    Prop where
  entries : ∃ blocks, f.m_blocks = some blocks ∧ f.Holds HEAD_SIZE blocks es
  logIndex : f.m_logIndex = (es.getLast?.elim p (·.logIndex))
  appends : ∀ e : LogEntryRpcBase, e.prevRecordLogIndex = (es.getLast?.elim p (·.logIndex)) →
    f.append cfg e ≠ some (.error .prevNotMatch) ∧ f.append cfg e ≠ some (.error .rollback)

def Reopens (r : Option (Status LogFile)) (cfg : LogConfig) (p : LogIndexInfo)
    (es : List LogEntryRpcBase) : Prop :=
  ∃ f, r = some (.ok f) ∧ f.Restored cfg p es

/-- Whatever is left of a file whose entries have valid indexes, it is not restored. -/
theorem not_reopens (h : Fills cfg fileId p q f es) (hp : p.invalid = false) (n m : Nat)
    (junk : Nat → UInt8) (fuel : Nat) :
    ¬ Reopens ((new fileId (f.stream.take n) (f.indexFile.map (·.take m))).recovery cfg junk fuel)
        cfg p (complete n HEAD_SIZE es) ∧
      ¬ Reopens ((new fileId (f.stream.take n) (f.indexFile.map (·.take m))).load cfg junk fuel)
        cfg p (complete n HEAD_SIZE es) := by
  -- the last index that the file should have is not the one of a new object
  have hlast : ((complete n HEAD_SIZE es).getLast?.elim p (·.logIndex)) ≠ ⟨0, 0⟩ := by
    have hterm : p.term ≠ 0 := by simpa [LogIndexInfo.invalid] using hp
    cases hget : (complete n HEAD_SIZE es).getLast? with
    | none =>
      intro heq
      exact hterm (congrArg LogIndexInfo.term heq)
    | some e =>
      have hlt := h.lt.2 e (complete_sublist.subset (List.mem_of_getLast? hget))
      intro heq
      rw [Option.elim_some] at heq
      rw [heq, LogIndexInfo.lt_def] at hlt
      simp only at hlt
      omega
  constructor
  · rintro ⟨g, hg, hrestored⟩
    exact hlast (hrestored.logIndex.symm.trans (recovery_logIndex hg))
  · rintro ⟨g, hg, hrestored⟩
    exact hlast (hrestored.logIndex.symm.trans (load_logIndex hg))

/-- A file of three entries in two blocks, of which the last one is torn. -/
theorem not_reopens_torn : ∃ f,
    Fills ⟨100, 300⟩ 1 ⟨1, 0⟩ ⟨1, 1⟩ f ((List.range 3).map (ClusterLog.entry · 0)) ∧
      f.m_blocks.map (·.length) = some 2 ∧
      complete 160 HEAD_SIZE ((List.range 3).map (ClusterLog.entry · 0)) =
        (List.range 2).map (ClusterLog.entry · 0) ∧
      ¬ Reopens ((new 1 (f.stream.take 160) (f.indexFile.map (·.take 40))).recovery ⟨100, 300⟩
          (fun _ => 0) 4)
        ⟨100, 300⟩ ⟨1, 0⟩ (complete 160 HEAD_SIZE ((List.range 3).map (ClusterLog.entry · 0))) := by
  obtain ⟨f₁, f₂, f, h₁, h₂, h₃, hblocks⟩ : ∃ f₁ f₂ f,
      (LogFile.create 1 ⟨1, 0⟩ ⟨1, 1⟩).append ⟨100, 300⟩ (ClusterLog.entry 0 0) = some (.ok f₁) ∧
        f₁.append ⟨100, 300⟩ (ClusterLog.entry 1 0) = some (.ok f₂) ∧
        f₂.append ⟨100, 300⟩ (ClusterLog.entry 2 0) = some (.ok f) ∧ f.m_blocks.map (·.length) = some 2 :=
    ⟨_, _, _, rfl, rfl, rfl, rfl⟩
  have hproper (i : Nat) (hi : i < 3) : (ClusterLog.entry i 0).Proper :=
    ClusterLog.entry_proper (by omega)
  have hfills := ((Fills.create.append (hproper 0 (by decide)) h₁).append (hproper 1 (by decide))
    h₂).append (hproper 2 (by decide)) h₃
  exact ⟨f, hfills, hblocks, rfl, (not_reopens hfills rfl 160 40 (fun _ => 0) 4).1⟩

set_option maxRecDepth 4000 in
/-- The file is recovered without an error, but the next entry is refused. -/
theorem recovery_forgets : ∃ f g,
    (LogFile.create 1 ⟨1, 0⟩ ⟨1, 1⟩).append .new (ClusterLog.entry 0 0) = some (.ok f) ∧
      f.close = some g ∧ ∀ (junk : Nat → UInt8) (fuel : Nat), ∃ g',
        (new 1 g.file g.indexFile).recovery .new junk fuel = some (.ok g') ∧
          g'.append .new (ClusterLog.entry 1 0) = some (.error .prevNotMatch) :=
  ⟨_, _, rfl, rfl, fun _ _ => ⟨_, rfl, rfl⟩⟩

end DBStream.Native.CLUSTER.LogFile
