import DBStream.Spec.RecoveryCorrect

/-!
# Redo writes that fail

A sequence of appends in which redo writes may fail.  `decodeRedo` reads the records off a
redo file by the rules of `recoveryFromRedo` (`replay_of_decode`).  The block itself counts,
indexes and bounds exactly the records whose append returned `B_OK`; the file has exactly
these records when every failed write left the file as it was (`redo_consistent_of_run`).
A write that fails behind its first byte is not taken back: what follows it in the file is
lost or read at the wrong place (`decodeRedo_after_fault`).
-/

namespace DBStream.Native

variable {I : IndexImpl} {Γ : MetaDataCollection I}

/-! ## Reading a redo file -/

/-- The records the loop of `recoveryFromRedo` finds from `head` on; `none` if it does not end. -/
def decodeLoop (buf : List UInt8) : Nat → Nat → Option (List (List UInt8))
  | 0, _ => none
  | fuel + 1, head =>
    if head ≤ buf.length then
      if head + 4 = buf.length ∧ RecordHead.size (buf.drop head) = ENDOF_REDO_NUM then some []
      else if buf.length < head + recordHeadSize ∨
          buf.length < head + RecordHead.size (buf.drop head) then some []
      else do
        let rest ← decodeLoop buf fuel (head + RecordHead.size (buf.drop head))
        return buf.slice head (RecordHead.size (buf.drop head)) :: rest
    else some []

/-- The records of a redo file; a file without a complete head counts as empty. -/
def decodeRedo (buf : List UInt8) : Option (List (List UInt8)) :=
  if buf.length < 8 then some [] else decodeLoop buf (buf.length + 1) 8

/-- The bytes of the records with the ids from `id` on, record by record. -/
def stamps (id : Nat) : List Record → List (List UInt8)
  | [] => []
  | r :: rs => r.stamped id :: stamps (id + 1) rs

theorem flatten_stamps (id : Nat) (rs : List Record) : (stamps id rs).flatten = stampAll id rs := by
  induction rs generalizing id with
  | nil => rfl
  | cons r rs ih => rw [stamps, List.flatten_cons, ih, stampAll]

private theorem stamps_snoc (id : Nat) (rs : List Record) (r : Record) :
    stamps id (rs ++ [r]) = stamps id rs ++ [r.stamped (id + rs.length)] := by
  induction rs generalizing id with
  | nil => rfl
  | cons r' rs ih =>
    rw [List.cons_append, stamps, ih, stamps, List.cons_append, List.length_cons]
    congr 4
    omega

theorem decodeLoop_stamps {buf pre : List UInt8} {id : Nat} {rs : List Record} {fuel : Nat}
    (hbuf : buf = pre ++ stampAll id rs) (hfuel : rs.length < fuel) :
    decodeLoop buf fuel pre.length = some (stamps id rs) := by
  induction rs generalizing pre id fuel with
  | nil =>
    obtain ⟨fuel, rfl⟩ : ∃ f, fuel = f + 1 := ⟨fuel - 1, by simp at hfuel; omega⟩
    have hlen : buf.length = pre.length := by simp [hbuf, stampAll]
    unfold decodeLoop
    rw [if_pos (by omega), if_neg (by omega), if_pos (by unfold recordHeadSize; omega)]
    rfl
  | cons r rs ih =>
    obtain ⟨fuel, rfl⟩ : ∃ f, fuel = f + 1 := ⟨fuel - 1, by simp at hfuel; omega⟩
    have hhead := r.head_le
    have hlen := r.length_stamped id
    rw [stampAll] at hbuf
    have hdrop : buf.drop pre.length = r.stamped id ++ stampAll (id + 1) rs := by simp [hbuf]
    have hsize : RecordHead.size (r.stamped id ++ stampAll (id + 1) rs) = r.data.length := by
      rw [← r.size_stamped id, RecordHead.size, RecordHead.size, List.slice_append_left]
      simp only [recordHeadSize] at hhead
      omega
    have hbuflen : buf.length = pre.length + (r.data.length + (stampAll (id + 1) rs).length) := by
      simp [hbuf, hlen]
    have hslice : buf.slice pre.length r.data.length = r.stamped id := by
      rw [hbuf, List.slice_append_mid _ rfl hlen]
    have hnext : decodeLoop buf fuel (pre ++ r.stamped id).length = some (stamps (id + 1) rs) :=
      ih (by rw [hbuf, List.append_assoc]) (by simpa using hfuel)
    rw [List.length_append, hlen] at hnext
    unfold decodeLoop
    rw [hdrop, hsize, if_pos (by omega), if_neg, if_neg (by omega), hslice, hnext]
    · rfl
    · intro hmarker
      exact AppendingBlock.size_ne_marker _ (hsize.trans hmarker.2)

theorem length_le_stampAll (id : Nat) (rs : List Record) :
    rs.length ≤ (stampAll id rs).length := by
  induction rs generalizing id with
  | nil => exact Nat.zero_le _
  | cons r rs ih =>
    have hhead := r.head_le
    have hrest := ih (id + 1)
    unfold recordHeadSize at hhead
    rw [stampAll, List.length_append, r.length_stamped, List.length_cons]
    omega

private theorem decodeRedo_stamps {head : List UInt8} (hhead : head.length = 8) (id : Nat)
    (rs : List Record) : decodeRedo (head ++ stampAll id rs) = some (stamps id rs) := by
  have hle := length_le_stampAll id rs
  unfold decodeRedo
  rw [List.length_append, if_neg (by omega), ← hhead]
  exact decodeLoop_stamps rfl (by omega)

/-! ## Writes that leave the file whole -/

namespace RedoState

variable {r r' w : RedoState} {io : RedoIo} {m_minLogOffset size : Nat} {data bytes : List UInt8}

/-- The file is empty, and the next write opens it. -/
structure Blank (r : RedoState) : Prop where
  invalid : fileHandleValid r.m_redoFd = false
  empty : r.content = []

/-- The answers of the system calls with which a redo write keeps the file whole: the descriptor is
    that of the redo file or none, the head of a new file is written as a whole or not at all, and
    so is the record, which is not written when it cannot be flushed. -/
structure CleanIo (r : RedoState) (size : Nat) (io : RedoIo) : Prop where
  target : fileHandleValid r.m_redoFd = true → r.openFd = some r.m_redoFd
  head : fileHandleValid r.m_redoFd = false → io.headWritten = 0 ∨ 8 ≤ io.headWritten
  data : io.dataWritten = 0 ∨
    size ≤ io.dataWritten ∧ ((r.flushDue size io.now).1 = true → io.synced = true)

/-- What decides whether a flush is due. -/
structure SameSettings (r r' : RedoState) : Prop where
  unflushed : r'.m_redoUnflushDataSize = r.m_redoUnflushDataSize
  dataSize : r'.m_redoFlushDataSize = r.m_redoFlushDataSize
  period : r'.m_redoFlushPeriod = r.m_redoFlushPeriod
  last : r'.m_lastFLushTime = r.m_lastFLushTime

theorem SameSettings.flushDue (h : SameSettings r r') (size : Nat) (now : Int) :
    r'.flushDue size now = r.flushDue size now := by
  unfold RedoState.flushDue
  rw [h.unflushed, h.dataSize, h.period, h.last]

theorem SameSettings.trans (h : SameSettings r r') (h' : SameSettings r' w) : SameSettings r w :=
  ⟨h'.unflushed.trans h.unflushed, h'.dataSize.trans h.dataSize, h'.period.trans h.period,
    h'.last.trans h.last⟩

theorem sameSettings_writeFile (r : RedoState) (bs : List UInt8) :
    SameSettings r (r.writeFile bs) := by
  unfold RedoState.writeFile
  split
  · exact ⟨rfl, rfl, rfl, rfl⟩
  · exact ⟨rfl, rfl, rfl, rfl⟩

theorem Attached.writeRedo_clean (hw : Attached w bytes) (hsame : SameSettings r w)
    (hdata : io.dataWritten = 0 ∨
      data.length ≤ io.dataWritten ∧ ((r.flushDue data.length io.now).1 = true → io.synced = true))
    (hpos : 0 < data.length) {s : AppendingBlockStaus}
    (h : r.writeRedo m_minLogOffset io data = (s, r')) (hopen : r.ensureOpen m_minLogOffset io = (true, w)) :
    (s = .B_OK ∧ Attached r' (bytes ++ data)) ∨ (s = .B_FAULT ∧ Attached r' bytes) := by
  unfold RedoState.writeRedo at h
  rw [ensureOpen] at hopen
  simp only [hopen, if_true] at h
  cases hdata with
  | inl hnone =>
    rw [hnone, List.take_zero, if_pos hpos] at h
    cases h
    have hsame := hw.writeFile []
    rw [List.append_nil] at hsame
    exact .inr ⟨rfl, hsame⟩
  | inr hall =>
    obtain ⟨hlen, hsync⟩ := hall
    have hdue := (hsame.trans (sameSettings_writeFile w data)).flushDue data.length io.now
    rw [if_neg (by omega), List.take_of_length_le hlen, hdue] at h
    have hfile := hw.writeFile data
    split at h
    · rename_i hflush
      rw [if_pos (hsync hflush)] at h
      cases h
      exact .inl ⟨rfl, hfile.valid, hfile.openFd, hfile.file⟩
    · cases h
      exact .inl ⟨rfl, hfile.valid, hfile.openFd, hfile.file⟩

theorem Blank.openRedoFile (h : Blank r) (m_minLogOffset : Nat)
    (hhead : io.headWritten = 0 ∨ 8 ≤ io.headWritten) :
    ∃ ok w, r.openRedoFile true m_minLogOffset io = (ok, w) ∧ SameSettings r w ∧
      ((ok = true ∧ Attached w (LE.bytes 8 m_minLogOffset)) ∨ (ok = false ∧ Blank w)) := by
  unfold RedoState.openRedoFile
  by_cases hfd : fileHandleValid io.openFd = true
  swap
  · rw [if_neg hfd]
    exact ⟨_, _, rfl, ⟨rfl, rfl, rfl, rfl⟩,
      .inr ⟨rfl, Bool.eq_false_of_not_eq_true hfd, h.empty⟩⟩
  rw [if_pos hfd]
  have hopened : Attached { r with
      m_redoFd := io.openFd, openFd := some io.openFd, file := some r.content } [] :=
    ⟨hfd, rfl, congrArg some h.empty⟩
  by_cases hseek : io.seekOk = true
  swap
  · simp only [hseek, if_true]
    refine ⟨_, _, rfl, ⟨rfl, rfl, rfl, rfl⟩, .inr ⟨rfl, rfl, ?_⟩⟩
    exact h.empty
  simp only [hseek, if_true, hopened.content, List.length_nil]
  cases hhead with
  | inl hnone =>
    rw [hnone, List.take_zero, if_pos (by omega)]
    have hfile := hopened.writeFile []
    refine ⟨_, _, rfl, ?_, .inr ⟨rfl, rfl, ?_⟩⟩
    · have hsame := sameSettings_writeFile { r with
        m_redoFd := io.openFd, openFd := some io.openFd, file := some r.content } []
      exact ⟨hsame.unflushed, hsame.dataSize, hsame.period, hsame.last⟩
    · exact hfile.content
  | inr hall =>
    rw [List.take_of_length_le (by rw [LE.length_bytes]; exact hall), if_neg (by omega)]
    have hfile := hopened.writeFile (LE.bytes 8 m_minLogOffset)
    refine ⟨_, _, rfl, ?_, .inl ⟨rfl, hfile⟩⟩
    have hsame := sameSettings_writeFile { r with
      m_redoFd := io.openFd, openFd := some io.openFd, file := some r.content }
      (LE.bytes 8 m_minLogOffset)
    exact ⟨hsame.unflushed, hsame.dataSize, hsame.period, hsame.last⟩

/-- The redo file has the records with these bytes, or it is still empty and there are none. -/
inductive Recorded (r : RedoState) : List UInt8 → Prop
  | blank (h : Blank r) : Recorded r []
  | attached {head bytes : List UInt8} (hhead : head.length = 8) (h : Attached r (head ++ bytes)) :
      Recorded r bytes

theorem Recorded.writeRedo (hr : Recorded r bytes) (hio : CleanIo r data.length io)
    (hpos : 0 < data.length) {s : AppendingBlockStaus}
    (h : r.writeRedo m_minLogOffset io data = (s, r')) :
    (s = .B_OK ∧ Recorded r' (bytes ++ data)) ∨ (s = .B_FAULT ∧ Recorded r' bytes) := by
  cases hr with
  | blank hblank =>
    obtain ⟨ok, w, hopen, hsame, hcase⟩ := hblank.openRedoFile m_minLogOffset
      (hio.head hblank.invalid)
    have hensure : r.ensureOpen m_minLogOffset io = (ok, w) := by
      rw [ensureOpen, hblank.invalid]
      exact hopen
    rcases hcase with ⟨rfl, hw⟩ | ⟨rfl, hw⟩
    · rcases hw.writeRedo_clean hsame hio.data hpos h hensure with ⟨hs, hr'⟩ | ⟨hs, hr'⟩
      · exact .inl ⟨hs, .attached (LE.length_bytes ..) hr'⟩
      · refine .inr ⟨hs, .attached (LE.length_bytes 8 m_minLogOffset) ?_⟩
        exact hr'
    · unfold RedoState.writeRedo at h
      rw [ensureOpen] at hensure
      simp only [hensure] at h
      cases h
      exact .inr ⟨rfl, .blank hw⟩
  | attached hhead hr =>
    have hensure : r.ensureOpen m_minLogOffset io = (true, r) := by
      rw [ensureOpen, if_pos hr.valid]
    rcases hr.writeRedo_clean ⟨rfl, rfl, rfl, rfl⟩ hio.data hpos h hensure with ⟨hs, hr'⟩ | ⟨hs, hr'⟩
    · rw [List.append_assoc] at hr'
      exact .inl ⟨hs, .attached hhead hr'⟩
    · exact .inr ⟨hs, .attached hhead hr'⟩

theorem Recorded.decode {id : Nat} {rs : List Record} (hr : Recorded r (stampAll id rs)) :
    decodeRedo r.content = some (stamps id rs) := by
  generalize hbytes : stampAll id rs = bytes at hr
  cases hr with
  | blank hblank =>
    have hnil : rs = [] := by
      have hle := length_le_stampAll id rs
      rw [hbytes] at hle
      exact List.eq_nil_of_length_eq_zero (by simpa using hle)
    rw [hblank.empty, hnil]
    rfl
  | attached hhead hr =>
    rw [hr.content, ← hbytes]
    exact decodeRedo_stamps hhead id rs

end RedoState

namespace AppendingBlock

variable {b b' : AppendingBlock I}

/-- Append the records that were read; `none` if one cannot be loaded or is not accepted. -/
def appendRead (Γ : MetaDataCollection I) (io : RedoIo) :
    List (List UInt8) → AppendingBlock I → Exec (Option (AppendingBlock I))
  | [], b => .ok (some b)
  | d :: ds, b =>
    match Record.parse d with
    | none => .ok none
    | some r => do
      let (s, b) ← b.append Γ r io
      if s = .B_OK then appendRead Γ io ds b else return none

/-! ## The indexes of the block -/

/-- The rows of table `k` among the records, with the numbers they are indexed under. -/
def keyedRows (Γ : MetaDataCollection I) (startID k : Nat) (acc : List Record) :
    List (List UInt8 × Nat) :=
  (acc.zipIdx.filter fun x => (Γ.metaOf x.1.data).map TableMeta.m_id = some k).map
    fun x => (x.1.stamped (startID + x.2), x.2)

private theorem keyedRows_snoc (startID k : Nat) (acc : List Record) (r : Record) :
    keyedRows Γ startID k (acc ++ [r]) = keyedRows Γ startID k acc ++
      if (Γ.metaOf r.data).map TableMeta.m_id = some k then
        [(r.stamped (startID + acc.length), acc.length)] else [] := by
  simp only [keyedRows, List.zipIdx_append, List.filter_append, List.map_append]
  congr 1
  simp only [List.zipIdx_cons, List.zipIdx_nil, List.filter_cons, List.filter_nil, Nat.zero_add]
  split <;> simp_all

theorem keyedRows_eq_nil {startID k : Nat} {acc : List Record} (h : rowsOf Γ k acc = []) :
    keyedRows Γ startID k acc = [] := by
  have hfilter := List.map_eq_nil_iff.mp h
  rw [keyedRows, hfilter]
  rfl

/-- Index rows one after the other. -/
def addRecords (t : TableData I) (rows : List (List UInt8 × Nat)) : Exec (TableData I) :=
  rows.foldlM (fun t x => t.addRecord x.1 x.2) t

/-- Two tables with the same indexes. -/
structure SameIndexes (t t' : TableData I) : Prop where
  primaryKey : t'.primaryKey = t.primaryKey
  uniqueKeys : t'.uniqueKeys = t.uniqueKeys

theorem SameIndexes.addRecord {t t₁ t' : TableData I} {data : List UInt8} {n : Nat}
    (h : SameIndexes t t₁) (hadd : t.addRecord data n = .ok t') :
    ∃ t₁', t₁.addRecord data n = .ok t₁' ∧ SameIndexes t' t₁' := by
  simp only [TableData.addRecord] at hadd ⊢
  obtain ⟨pk, hpk, hadd⟩ := Exec.of_bind hadd
  obtain ⟨uks, huks, hadd⟩ := Exec.of_bind hadd
  cases hadd
  rw [h.primaryKey, h.uniqueKeys, hpk]
  refine ⟨{ t₁ with recordIds := t₁.recordIds ++ [n], primaryKey := pk, uniqueKeys := uks }, ?_,
    rfl, rfl⟩
  rw [huks]
  rfl

/-- Every table's indexes are what indexing its rows among `acc` gives. -/
def IndexesOf (Γ : MetaDataCollection I) (startID : Nat) (b : AppendingBlock I)
    (acc : List Record) : Prop :=
  ∀ k t m, b.m_tableDatas.find k = some t → t.tableMeta = some m →
    ∃ t₀ t₁, TableData.init m = .ok t₀ ∧ addRecords t₀ (keyedRows Γ startID k acc) = .ok t₁ ∧
      SameIndexes t t₁

variable {startID : Nat} {acc : List Record}

theorem indexesOf_create (Γ : MetaDataCollection I) (blockId : Nat) (flag : BlockFlag)
    (bufSize : Nat) (flushSize flushPeriod : Int) (startID : Nat) (fd : Int) :
    IndexesOf Γ startID ((create blockId flag bufSize flushSize flushPeriod startID :
      AppendingBlock I).withRedoFd fd) [] := by
  intro k t m ht hm
  change (SortedMap.singleton 0 TableData.default).find k = some t at ht
  rw [SortedMap.find_singleton] at ht
  split at ht
  · cases ht
    cases hm
  · cases ht

theorem IndexesOf.same (h : IndexesOf Γ startID b acc)
    (htables : ∀ k t', b'.m_tableDatas.find k = some t' → ∃ t, b.m_tableDatas.find k = some t ∧
      t'.tableMeta = t.tableMeta ∧ t'.primaryKey = t.primaryKey ∧ t'.uniqueKeys = t.uniqueKeys) :
    IndexesOf Γ startID b' acc := by
  intro k t' m ht' hm
  obtain ⟨t, ht, hmeta, hpk, huk⟩ := htables k t' ht'
  rw [hmeta] at hm
  obtain ⟨t₀, t₁, hinit, hadd, hsame⟩ := h k t m ht hm
  exact ⟨t₀, t₁, hinit, hadd, by rw [hpk]; exact hsame.primaryKey,
    by rw [huk]; exact hsame.uniqueKeys⟩

variable {m : Option (TableMeta I)}

theorem IndexesOf.getTableData {Q : Nat → Nat → Prop} (h : IndexesOf Γ startID b acc)
    (hc : Contents Γ Q b acc) (hb' : b.getTableData m = .ok b') :
    IndexesOf Γ startID b' acc := by
  rcases getTableData_cases hb' with ⟨rfl, -⟩ | ⟨m', t, -, hfind, hinit, rfl⟩
  · exact h
  · intro k t' m ht' hm
    rcases b.m_tableDatas.find_insert_cases hfind ht' with ⟨rfl, rfl⟩ | ⟨-, hold⟩
    · -- a table that was not registered has no rows yet
      have hmeta := (init_spec hinit).1
      rw [hmeta] at hm
      cases hm
      refine ⟨t', t', hinit, ?_, rfl, rfl⟩
      rw [keyedRows_eq_nil (hc.rowsOf_eq_nil hfind)]
      rfl
    · exact h k t' m hold hm

theorem IndexesOf.opened (h : IndexesOf Γ startID b acc) {key size : Nat}
    (hopened : Opened b key size b') : IndexesOf Γ startID b' acc := by
  cases hopened with
  | found => exact h
  | made t ht _ _ =>
    apply h.same
    intro k u' hu'
    rcases b.m_tableDatas.find_modify_cases ht hu' with ⟨rfl, rfl⟩ | ⟨-, hold⟩
    · exact ⟨t, ht, rfl, rfl, rfl⟩
    · exact ⟨u', hold, rfl, rfl, rfl⟩

theorem IndexesOf.store (h : IndexesOf Γ startID b acc) (hmin : b.m_minRecordId = startID)
    (hcount : b.m_recordCount = acc.length) {key size slot : Nat} {t : TableData I} {p : Page}
    {r : Record} {redo : RedoState} {tables : SortedMap Nat (TableData I)}
    (hready : Ready b key size slot t p) (hkey : key = tableKey (Γ.metaOf r.data))
    (hidx : AppendingBlock.Indexed Γ b r t tables) :
    IndexesOf Γ startID (b.store slot p r redo tables) (acc ++ [r]) := by
  intro k u m hu hm
  change tables.find k = some u at hu
  have ht := hready.table
  rw [keyedRows_snoc]
  cases hidx with
  | row m' t' hmeta hadd =>
    rw [hkey, hmeta, tableKey] at ht
    rcases b.m_tableDatas.find_modify_cases ht hu with ⟨rfl, rfl⟩ | ⟨hk, hold⟩
    · -- the table of the row
      have hmeta' : u.tableMeta = t.tableMeta := (addRecord_spec hadd).1
      rw [hmeta'] at hm
      obtain ⟨t₀, t₁, hinit, hrows, hsame⟩ := h _ t m ht hm
      rw [hmin, hcount] at hadd
      obtain ⟨t₁', hadd', hsame'⟩ := hsame.addRecord hadd
      refine ⟨t₀, t₁', hinit, ?_, hsame'⟩
      rw [if_pos (by rw [hmeta]; rfl), addRecords, List.foldlM_append]
      show (addRecords t₀ (keyedRows Γ startID m'.m_id acc) >>= fun t => _) = _
      rw [hrows]
      show (t₁.addRecord _ _ >>= fun t => _) = _
      rw [hadd']
      rfl
    · have hne : (Γ.metaOf r.data).map TableMeta.m_id ≠ some k := by
        rw [hmeta]
        intro heq
        exact hk (Option.some.inj heq).symm
      rw [if_neg hne, List.append_nil]
      exact h k u m hold hm
  | other _ hmeta =>
    rw [hmeta, if_neg (by simp), List.append_nil]
    exact h k u m hu hm

/-! ## One call -/

/-- What a call leaves of the parts that `finish`, a new table and a new page do not touch. -/
structure Kept (b b' : AppendingBlock I) : Prop where
  hasRedo : b'.m_flag.hasRedo = b.m_flag.hasRedo
  redo : b'.redo = b.redo
  minLog : b'.m_minLogOffset = b.m_minLogOffset
  maxLog : b'.m_maxLogOffset = b.m_maxLogOffset

theorem Kept.getTableData {b₁ : AppendingBlock I}
    (hb₁ : b.getTableData m = .ok b₁) : Kept b b₁ := by
  rcases getTableData_cases hb₁ with ⟨rfl, -⟩ | ⟨m', t, -, -, -, rfl⟩
  · exact ⟨rfl, rfl, rfl, rfl⟩
  · exact ⟨rfl, rfl, rfl, rfl⟩

theorem Kept.opened {b₁ b₂ : AppendingBlock I} {key size : Nat}
    (hb₁ : b.getTableData m = .ok b₁) (hopened : Opened b₁ key size b₂) : Kept b b₂ := by
  have h₁ := Kept.getTableData hb₁
  cases hopened with
  | found => exact h₁
  | made t _ _ _ => exact ⟨h₁.hasRedo, h₁.redo, h₁.minLog, h₁.maxLog⟩

variable {s : AppendingBlockStaus}

/-- The redo file and the log offsets after a call: a call that gets as far as the redo write
    leaves what that write leaves, and a record that is accepted moves the bounds. -/
theorem step_redo {op : Op} (hflag : b.m_flag.hasRedo = true)
    (h : b.step Γ op = .ok (s, b')) :
    b'.m_flag.hasRedo = true ∧
    ((Kept b b' ∧ accepted op s = []) ∨
     ∃ r io, op = .append r io ∧
      b.redo.writeRedo b.m_minLogOffset io (r.stamped (b.m_minRecordId + b.m_recordCount)) =
        (s, b'.redo) ∧
      ((s ≠ .B_OK ∧ b'.m_minLogOffset = b.m_minLogOffset ∧ b'.m_maxLogOffset = b.m_maxLogOffset) ∨
       (s = .B_OK ∧ b'.m_maxLogOffset = RecordHead.logOffset r.data ∧
        b'.m_minLogOffset =
          if b.m_minLogOffset = 0 then RecordHead.logOffset r.data else b.m_minLogOffset))) := by
  cases op with
  | alloc tableId size =>
    obtain ⟨b₁, hb₁, halloc⟩ := Exec.of_bind h
    rcases allocMemForRecord_cases halloc with ⟨rfl, rfl, -⟩ | ⟨rfl, hopened, -⟩
    · have hkept := Kept.getTableData hb₁
      exact ⟨hkept.hasRedo.trans hflag,
        .inl ⟨⟨hkept.hasRedo, hkept.redo, hkept.minLog, hkept.maxLog⟩, rfl⟩⟩
    · have hkept := Kept.opened hb₁ hopened
      exact ⟨hkept.hasRedo.trans hflag, .inl ⟨hkept, rfl⟩⟩
  | append r io =>
    rcases append_cases h with ⟨rfl, rfl, -⟩ | ⟨-, b₁, hb₁, hcase⟩
    · exact ⟨hflag, .inl ⟨⟨rfl, rfl, rfl, rfl⟩, rfl⟩⟩
    rcases hcase with ⟨rfl, rfl, -⟩ | ⟨b₂, t, slot, p, redo, hopened, -, hredo, hend⟩
    · have hkept := Kept.getTableData hb₁
      exact ⟨hkept.hasRedo.trans hflag,
        .inl ⟨⟨hkept.hasRedo, hkept.redo, hkept.minLog, hkept.maxLog⟩, rfl⟩⟩
    have hkept := Kept.opened hb₁ hopened
    rw [writeRedo_place hb₁ hopened, AppendingBlock.writeRedo, if_pos hflag] at hredo
    rcases hend with ⟨hs, rfl⟩ | ⟨rfl, tables, -, rfl⟩
    · exact ⟨hkept.hasRedo.trans hflag,
        .inr ⟨r, io, rfl, hredo, .inl ⟨hs, hkept.minLog, hkept.maxLog⟩⟩⟩
    · refine ⟨hkept.hasRedo.trans hflag, .inr ⟨r, io, rfl, hredo, .inr ⟨rfl, rfl, ?_⟩⟩⟩
      show (if b₂.m_minLogOffset = 0 then _ else b₂.m_minLogOffset) = _
      rw [hkept.minLog]

theorem IndexesOf.step {Q : Nat → Nat → Prop} (h : IndexesOf Γ startID b acc)
    (hmin : b.m_minRecordId = startID) (hc : Contents Γ Q b acc) {op : Op}
    (hcall : b.step Γ op = .ok (s, b')) :
    IndexesOf Γ startID b' (acc ++ accepted op s) := by
  rcases step_cases hcall with ⟨rfl, rfl⟩ | ⟨b₁, hb₁, hcase⟩
  · have hnil : accepted op .B_ILLEGAL = [] := by cases op <;> rfl
    rw [hnil, List.append_nil]
    exact h
  have h₁ := h.getTableData hc hb₁
  obtain ⟨hext₁, hcount₁⟩ := Extends.getTableData hb₁
  rcases hcase with ⟨rfl, rfl, -⟩ | ⟨b₂, hopened, t, slot, p, hready, hend⟩
  · have hnil : accepted op .B_FULL = [] := by cases op <;> rfl
    rw [hnil, List.append_nil]
    exact h₁
  have h₂ := h₁.opened hopened
  have hkept₂ : b₂.m_minRecordId = b₁.m_minRecordId ∧ b₂.m_recordCount = b₁.m_recordCount := by
    cases hopened with
    | found => exact ⟨rfl, rfl⟩
    | made _ _ _ _ => exact ⟨rfl, rfl⟩
  rcases hend with ⟨hnil, rfl | ⟨r, redo, -, rfl⟩⟩ | ⟨r, io, redo, tables, rfl, rfl, hidx, rfl⟩
  · rw [hnil, List.append_nil]
    exact h₂
  · rw [hnil, List.append_nil]
    exact h₂
  · refine h₂.store ?_ ?_ hready rfl hidx
    · rw [hkept₂.1, hext₁.minId, hmin]
    · rw [hkept₂.2, hcount₁, hc.count]

/-! ## Runs -/

/-- The log offset of the first record, `0` without records. -/
def firstLogOffset (acc : List Record) : Nat :=
  (acc.head?.map fun r => RecordHead.logOffset r.data).getD 0

/-- The log offset of the last record, `0` without records. -/
def lastLogOffset (acc : List Record) : Nat :=
  (acc.getLast?.map fun r => RecordHead.logOffset r.data).getD 0

/-- The redo file and the block agree on the records `acc`. -/
structure Consistent (Γ : MetaDataCollection I) (b : AppendingBlock I) (acc : List Record) :
    Prop where
  file : decodeRedo b.redo.content = some (stamps b.m_minRecordId acc)
  count : b.m_recordCount = acc.length
  placed : ∀ (i : Nat) (r : Record), acc[i]? = some r → ∃ slot offset, Placed b i r slot offset
  indexes : IndexesOf Γ b.m_minRecordId b acc
  minLog : b.m_minLogOffset = firstLogOffset acc
  maxLog : b.m_maxLogOffset = lastLogOffset acc

/-- The step condition: a redo write that is made keeps the file whole, and no record with a log
    offset follows one without. -/
def CleanCall (b : AppendingBlock I) : Op → AppendingBlockStaus → Prop
  | .alloc _ _, _ => True
  | .append r io, s =>
    (s = .B_OK ∨ s = .B_FAULT → b.redo.CleanIo r.data.length io) ∧
    (s = .B_OK → b.m_recordCount = 0 ∨ b.m_minLogOffset ≠ 0 ∨ RecordHead.logOffset r.data = 0)

/-- The redo file along a run: it has the accepted records, or its descriptor was never right and
    there are none. -/
def FileOf (b : AppendingBlock I) (startID : Nat) (acc : List Record) : Prop :=
  b.redo.Recorded (stampAll startID acc) ∨ (b.redo.Detached ∧ acc = [])

theorem stampAll_snoc (id : Nat) (rs : List Record) (r : Record) :
    stampAll id (rs ++ [r]) = stampAll id rs ++ r.stamped (id + rs.length) := by
  rw [← flatten_stamps, stamps_snoc, List.flatten_append, flatten_stamps]
  simp

theorem FileOf.step (h : FileOf b startID acc) (hmin : b.m_minRecordId = startID)
    (hcount : b.m_recordCount = acc.length) (hflag : b.m_flag.hasRedo = true) {op : Op}
    (hcond : CleanCall b op s) (hcall : b.step Γ op = .ok (s, b')) :
    FileOf b' startID (acc ++ accepted op s) := by
  rcases (step_redo hflag hcall).2 with ⟨hkept, hnil⟩ | ⟨r, io, rfl, hwrite, hend⟩
  · rw [hnil, List.append_nil]
    unfold FileOf
    rw [hkept.redo]
    exact h
  have hs : s = .B_OK ∨ s = .B_FAULT := by
    have := RedoState.writeRedo_status b.redo b.m_minLogOffset io
      (r.stamped (b.m_minRecordId + b.m_recordCount))
    rw [hwrite] at this
    exact this
  have hclean := hcond.1 hs
  rcases h with hrec | ⟨hdet, -⟩
  · have hpos : 0 < (r.stamped (b.m_minRecordId + b.m_recordCount)).length := by
      have := r.head_le
      unfold recordHeadSize at this
      rw [r.length_stamped]
      omega
    rw [← r.length_stamped (b.m_minRecordId + b.m_recordCount)] at hclean
    rcases hrec.writeRedo hclean hpos hwrite with ⟨rfl, hrec'⟩ | ⟨rfl, hrec'⟩
    · left
      rw [accepted, stampAll_snoc, ← hmin, ← hcount]
      rw [hmin] at hrec' ⊢
      exact hrec'
    · left
      rw [show accepted (.append r io) .B_FAULT = [] from rfl, List.append_nil]
      exact hrec'
  · -- a valid descriptor has to be that of the file
    have htarget := hclean.target hdet.valid
    rw [hdet.openFd] at htarget
    cases htarget

theorem bounds_step (hmin : b.m_minLogOffset = firstLogOffset acc)
    (hmax : b.m_maxLogOffset = lastLogOffset acc) (hcount : b.m_recordCount = acc.length)
    (hflag : b.m_flag.hasRedo = true) {op : Op}
    (hcond : CleanCall b op s) (hcall : b.step Γ op = .ok (s, b')) :
    b'.m_minLogOffset = firstLogOffset (acc ++ accepted op s) ∧
      b'.m_maxLogOffset = lastLogOffset (acc ++ accepted op s) := by
  rcases (step_redo hflag hcall).2 with ⟨hkept, hnil⟩ | ⟨r, io, rfl, hwrite, hend⟩
  · rw [hnil, List.append_nil, hkept.minLog, hkept.maxLog]
    exact ⟨hmin, hmax⟩
  rcases hend with ⟨hs, hmin', hmax'⟩ | ⟨rfl, hmax', hmin'⟩
  · have hnil : accepted (.append r io) s = [] := by
      cases s <;> first | rfl | exact absurd rfl hs
    rw [hnil, List.append_nil, hmin', hmax']
    exact ⟨hmin, hmax⟩
  · rw [hmin', hmax', accepted]
    refine ⟨?_, by simp [lastLogOffset]⟩
    cases acc with
    | nil =>
      have hzero : b.m_minLogOffset = 0 := hmin
      rw [if_pos hzero]
      rfl
    | cons r₀ rest =>
      have hfirst : b.m_minLogOffset = firstLogOffset ((r₀ :: rest) ++ [r]) := hmin
      rw [← hfirst]
      split
      · -- the bound is unset, so the record has no log offset either
        rename_i hzero
        have hoff := hcond.2 rfl
        rw [hcount] at hoff
        rcases hoff with hempty | hset | hnone
        · cases hempty
        · exact absurd hzero hset
        · rw [hzero, hnone]
      · rfl

theorem layout_withRedoFd (Γ : MetaDataCollection I) (blockId : Nat) (flag : BlockFlag)
    (bufSize : Nat) (flushSize flushPeriod : Int) (startID : Nat) (fd : Int) :
    Layout Γ ((create blockId flag bufSize flushSize flushPeriod startID :
      AppendingBlock I).withRedoFd fd) := by
  have hl := layout_create (I := I) Γ blockId flag bufSize flushSize flushPeriod startID
  exact ⟨hl.pageId, hl.table, hl.default, hl.owner, hl.pageCount, hl.tableCount⟩

theorem contents_withRedoFd (Γ : MetaDataCollection I) (blockId : Nat) (flag : BlockFlag)
    (bufSize : Nat) (flushSize flushPeriod : Int) (startID : Nat) (fd : Int) :
    Contents Γ (fun _ _ => True) ((create blockId flag bufSize flushSize flushPeriod startID :
      AppendingBlock I).withRedoFd fd) [] := by
  have hc := contents_create (I := I) Γ (fun _ _ => True) blockId flag bufSize flushSize
    flushPeriod startID
  refine hc.extends ?_ rfl hc.recordIds
  exact .of_same rfl rfl rfl fun _ t ht => ⟨t, ht, fun _ hs => hs⟩

/-- In every run, whatever the redo file does, the indexes of a table are those of its rows. -/
theorem Run.indexesOf {P : AppendingBlock I → Op → AppendingBlockStaus → Prop} {blockId : Nat}
    {flag : BlockFlag} {bufSize : Nat} {flushSize flushPeriod fd : Int}
    (h : Run Γ P ((create blockId flag bufSize flushSize flushPeriod startID).withRedoFd fd) b acc) :
    IndexesOf Γ startID b acc ∧ b.m_minRecordId = startID ∧ Contents Γ (fun _ _ => True) b acc := by
  have hl₀ := layout_withRedoFd Γ blockId flag bufSize flushSize flushPeriod startID fd
  induction h with
  | nil => exact ⟨indexesOf_create Γ blockId flag bufSize flushSize flushPeriod startID fd, rfl,
      contents_withRedoFd Γ blockId flag bufSize flushSize flushPeriod startID fd⟩
  | @snoc b b' acc op s run cond call ih =>
    obtain ⟨hidx, hmin, hc⟩ := ih
    have hlands : LandsIn Γ (fun _ _ => True) b op := by cases op <;> trivial
    exact ⟨hidx.step hmin hc call, (step_ids call).2.trans hmin,
      hc.step (run.layout hl₀) (fun _ => hlands) call⟩

/-- In every run of calls whose redo writes keep the file whole, the file has exactly the records
    whose append returned `B_OK`, and the block counts, indexes and bounds exactly these. -/
theorem redo_consistent_of_run (Γ : MetaDataCollection I) (blockId : Nat) (flag : BlockFlag)
    (bufSize : Nat) (flushSize flushPeriod : Int) (startID : Nat) (fd : Int)
    (hflag : flag.hasRedo = true)
    (hrun : Run Γ CleanCall ((create blockId flag bufSize flushSize flushPeriod startID).withRedoFd
      fd) b acc) :
    Consistent Γ b acc := by
  have hl₀ := layout_withRedoFd Γ blockId flag bufSize flushSize flushPeriod startID fd
  have hc₀ := contents_withRedoFd Γ blockId flag bufSize flushSize flushPeriod startID fd
  have hfile₀ : FileOf ((create blockId flag bufSize flushSize flushPeriod startID :
      AppendingBlock I).withRedoFd fd) startID [] := by
    by_cases hfd : 0 ≤ fd
    · exact .inr ⟨⟨decide_eq_true hfd, rfl, rfl⟩, rfl⟩
    · exact .inl (.blank ⟨decide_eq_false hfd, rfl⟩)
  have hinv : FileOf b startID acc ∧ IndexesOf Γ startID b acc ∧ b.m_minRecordId = startID ∧
      b.m_flag.hasRedo = true ∧ b.m_minLogOffset = firstLogOffset acc ∧
      b.m_maxLogOffset = lastLogOffset acc ∧ Contents Γ (fun _ _ => True) b acc := by
    induction hrun with
    | nil => exact ⟨hfile₀, indexesOf_create Γ blockId flag bufSize flushSize flushPeriod startID fd,
        rfl, hflag, rfl, rfl, hc₀⟩
    | @snoc b b' acc op s run cond call ih =>
      obtain ⟨hfile, hidx, hmin, hredo, hlo, hhi, hc⟩ := ih
      have hlands : LandsIn Γ (fun _ _ => True) b op := by cases op <;> trivial
      have hbounds := bounds_step hlo hhi hc.count hredo cond call
      exact ⟨hfile.step hmin hc.count hredo cond call, hidx.step hmin hc call,
        (step_ids call).2.trans hmin, (step_redo hredo call).1, hbounds.1, hbounds.2,
        hc.step (run.layout hl₀) (fun _ => hlands) call⟩
  obtain ⟨hfile, hidx, hmin, -, hlo, hhi, hc⟩ := hinv
  refine ⟨?_, hc.count, ?_, by rw [hmin]; exact hidx, hlo, hhi⟩
  · rw [hmin]
    rcases hfile with hrec | ⟨hdet, rfl⟩
    · exact hrec.decode
    · rw [RedoState.content, hdet.file]
      rfl
  · intro i r hr
    obtain ⟨slot, offset, t, -, hplaced, -⟩ := hc.placed i r hr
    exact ⟨slot, offset, hplaced⟩

/-- System calls of an append whose record write stops after `n` bytes. -/
def tornIo (n : Nat) : RedoIo := { quietIo with dataWritten := n }

/-- An append whose write fails before its first byte, and the same record again. -/
theorem redo_consistent_of_run_retry : ∃ (b : AppendingBlock noIndex),
    Run noTables CleanCall ((redoBlock 0).withRedoFd (-1)) b [shortDdl] ∧
      Consistent noTables b [shortDdl] := by
  have hexec : (((redoBlock 0).withRedoFd (-1)).step noTables (.append shortDdl (tornIo 0)) >>=
      fun x => x.2.step noTables (.append shortDdl quietIo) >>= fun y =>
      .ok (x.1, y.1, decide (x.2.redo.openFd = some x.2.redo.m_redoFd), x.2.m_recordCount,
        fileHandleValid x.2.redo.m_redoFd)) = .ok (.B_FAULT, .B_OK, true, 0, true) := by rfl
  obtain ⟨⟨s₁, b₁⟩, h₁, hexec⟩ := Exec.of_bind hexec
  obtain ⟨⟨s₂, b₂⟩, h₂, hret⟩ := Exec.of_bind hexec
  simp only [Except.ok.injEq, Prod.mk.injEq, decide_eq_true_eq] at hret
  obtain ⟨rfl, rfl, hopen, hcount, hvalid⟩ := hret
  have hclean₁ : CleanCall ((redoBlock 0).withRedoFd (-1)) (.append shortDdl (tornIo 0))
      .B_FAULT := by
    refine ⟨fun _ => ⟨fun h => ?_, fun _ => .inr (by decide), .inl rfl⟩, fun h => nomatch h⟩
    cases h
  have hclean₂ : CleanCall b₁ (.append shortDdl quietIo) .B_OK := by
    refine ⟨fun _ => ⟨fun _ => hopen, fun h => ?_, .inr ⟨by decide, fun _ => rfl⟩⟩,
      fun _ => .inl hcount⟩
    rw [hvalid] at h
    cases h
  have hrun := (Run.snoc .nil hclean₁ h₁).snoc hclean₂ h₂
  exact ⟨b₂, hrun, redo_consistent_of_run noTables 1 { appending := true, hasRedo := true }
    (1024 * 1024) (-1) (-1) 0 (-1) rfl hrun⟩

/-- An append whose write fails after ten bytes, and the same record again: the ten bytes stay in
    front of the record, and what is read back is not the record. -/
theorem decodeRedo_after_fault : ∃ (b : AppendingBlock noIndex),
    Run noTables (fun _ _ _ => True) ((redoBlock 0).withRedoFd (-1)) b [shortDdl] ∧
      decodeRedo b.redo.content ≠ some (stamps b.m_minRecordId [shortDdl]) ∧
      ¬ Consistent noTables b [shortDdl] := by
  have hexec : (((redoBlock 0).withRedoFd (-1)).step noTables (.append shortDdl (tornIo 10)) >>=
      fun x => x.2.step noTables (.append shortDdl quietIo) >>= fun y =>
      .ok (x.1, y.1, decide (decodeRedo y.2.redo.content =
        some (stamps y.2.m_minRecordId [shortDdl])))) = .ok (.B_FAULT, .B_OK, false) := by rfl
  obtain ⟨⟨s₁, b₁⟩, h₁, hexec⟩ := Exec.of_bind hexec
  obtain ⟨⟨s₂, b₂⟩, h₂, hret⟩ := Exec.of_bind hexec
  simp only [Except.ok.injEq, Prod.mk.injEq, decide_eq_false_iff_not] at hret
  obtain ⟨rfl, rfl, hdecode⟩ := hret
  have hrun := (Run.snoc (P := fun _ _ _ => True) .nil trivial h₁).snoc trivial h₂
  exact ⟨b₂, hrun, hdecode, fun h => hdecode h.file⟩

end AppendingBlock

end DBStream.Native
