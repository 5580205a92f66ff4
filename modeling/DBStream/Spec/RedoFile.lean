import DBStream.Native.Recovery
import DBStream.Spec.BlockContents

/-!
# What is in a redo file

The redo file of a block after a sequence of appends.  It depends on the descriptor the block
starts with: with an invalid one the first append opens the file and writes its head, with
any other (the constructor sets `0`) the file is never opened and the records go elsewhere.
-/

namespace DBStream.Native

variable {I : IndexImpl} {Γ : MetaDataCollection I}

def endMarker : List UInt8 := LE.bytes 8 ENDOF_REDO_NUM

@[simp] theorem length_endMarker : endMarker.length = 8 := LE.length_bytes ..

namespace RedoState

variable {r r' : RedoState} {io : RedoIo} {m_minLogOffset : Nat} {data bytes : List UInt8}

/-- The descriptor is that of the redo file, which has these bytes. -/
structure Attached (r : RedoState) (bytes : List UInt8) : Prop where
  valid : fileHandleValid r.m_redoFd = true
  openFd : r.openFd = some r.m_redoFd
  file : r.file = some bytes

/-- The redo file was not opened yet, but the next write will open it. -/
structure Unopened (r : RedoState) : Prop where
  invalid : fileHandleValid r.m_redoFd = false
  file : r.file = none

/-- The descriptor passes for valid, but is not that of the redo file. -/
structure Detached (r : RedoState) : Prop where
  valid : fileHandleValid r.m_redoFd = true
  openFd : r.openFd = none
  file : r.file = none

theorem Attached.content (h : Attached r bytes) : r.content = bytes := by
  rw [RedoState.content, h.file, Option.getD_some]

theorem Attached.writeFile (h : Attached r bytes) (data : List UInt8) :
    Attached (r.writeFile data) (bytes ++ data) := by
  unfold RedoState.writeFile
  rw [if_pos h.openFd, h.content]
  exact ⟨h.valid, h.openFd, rfl⟩

theorem Detached.writeFile (h : Detached r) (data : List UInt8) : r.writeFile data = r := by
  unfold RedoState.writeFile
  rw [if_neg]
  rw [h.openFd]
  intro hfd
  cases hfd

theorem Unopened.openRedoFile (h : Unopened r)
    (hok : (r.openRedoFile true m_minLogOffset io).1 = true) :
    Attached (r.openRedoFile true m_minLogOffset io).2 (LE.bytes 8 m_minLogOffset) := by
  have hempty : r.content = [] := by
    rw [RedoState.content, h.file]
    rfl
  have hopened : Attached { r with
      m_redoFd := io.openFd, openFd := some io.openFd, file := some r.content } [] ∨
      fileHandleValid io.openFd = false := by
    by_cases hfd : fileHandleValid io.openFd = true
    · exact Or.inl ⟨hfd, rfl, congrArg some hempty⟩
    · exact Or.inr (Bool.eq_false_of_not_eq_true hfd)
  unfold RedoState.openRedoFile at hok ⊢
  rcases hopened with hopened | hfd
  · have hfd : fileHandleValid io.openFd = true := hopened.valid
    simp only [hfd, if_true] at hok ⊢
    by_cases hseek : io.seekOk
    · have hlen : (RedoState.content { r with
          m_redoFd := io.openFd, openFd := some io.openFd, file := some r.content }).length = 0 := by
        rw [hopened.content]
        rfl
      simp only [hseek, if_true, hlen] at hok ⊢
      by_cases hhead : io.headWritten < 8
      · simp [hhead] at hok
      · simp only [hhead, if_false]
        have htake : (LE.bytes 8 m_minLogOffset).take io.headWritten = LE.bytes 8 m_minLogOffset :=
          List.take_of_length_le (by rw [LE.length_bytes]; omega)
        rw [htake]
        exact hopened.writeFile _
    · simp [hseek] at hok
  · simp [hfd] at hok

/-- The descriptor `writeRedo` and `finishRedo` write to. -/
def ensureOpen (r : RedoState) (m_minLogOffset : Nat) (io : RedoIo) : Bool × RedoState :=
  if fileHandleValid r.m_redoFd then (true, r) else r.openRedoFile true m_minLogOffset io

theorem writeRedo_ok (h : r.writeRedo m_minLogOffset io data = (.B_OK, r')) :
    (r.ensureOpen m_minLogOffset io).1 = true ∧
      ∃ w, w = (r.ensureOpen m_minLogOffset io).2.writeFile data ∧ r'.m_redoFd = w.m_redoFd ∧
        r'.openFd = w.openFd ∧ r'.file = w.file := by
  unfold RedoState.writeRedo at h
  unfold ensureOpen
  generalize (if fileHandleValid r.m_redoFd then (true, r)
    else r.openRedoFile true m_minLogOffset io) = opened at h ⊢
  by_cases hopened : opened.1
  · refine ⟨hopened, _, rfl, ?_⟩
    simp only [hopened, if_true] at h
    by_cases hshort : io.dataWritten < data.length
    · simp only [hshort, if_true] at h
      cases h
    · have htake : data.take io.dataWritten = data := List.take_of_length_le (by omega)
      simp only [hshort, if_false, htake] at h
      split at h
      · split at h
        · cases h
          exact ⟨rfl, rfl, rfl⟩
        · cases h
      · cases h
        exact ⟨rfl, rfl, rfl⟩
  · simp only [hopened] at h
    cases h

theorem Attached.writeRedo (hr : Attached r bytes)
    (h : r.writeRedo m_minLogOffset io data = (.B_OK, r')) : Attached r' (bytes ++ data) := by
  obtain ⟨-, w, rfl, hfd, hopen, hfile⟩ := writeRedo_ok h
  have hw := hr.writeFile data
  rw [ensureOpen, if_pos hr.valid] at hfd hopen hfile
  exact ⟨by rw [hfd]; exact hw.valid, by rw [hopen, hfd]; exact hw.openFd, by rw [hfile, hw.file]⟩

theorem Unopened.writeRedo (hr : Unopened r)
    (h : r.writeRedo m_minLogOffset io data = (.B_OK, r')) :
    Attached r' (LE.bytes 8 m_minLogOffset ++ data) := by
  obtain ⟨hok, w, rfl, hfd, hopen, hfile⟩ := writeRedo_ok h
  have hensure : r.ensureOpen m_minLogOffset io = r.openRedoFile true m_minLogOffset io := by
    rw [ensureOpen, hr.invalid]
    rfl
  rw [hensure] at hok hfd hopen hfile
  have hw := (hr.openRedoFile hok).writeFile data
  exact ⟨by rw [hfd]; exact hw.valid, by rw [hopen, hfd]; exact hw.openFd, by rw [hfile, hw.file]⟩

theorem Detached.writeRedo (hr : Detached r)
    (h : r.writeRedo m_minLogOffset io data = (.B_OK, r')) : Detached r' := by
  obtain ⟨-, w, rfl, hfd, hopen, hfile⟩ := writeRedo_ok h
  rw [ensureOpen, if_pos hr.valid, hr.writeFile] at hfd hopen hfile
  exact ⟨by rw [hfd]; exact hr.valid, by rw [hopen, hr.openFd], by rw [hfile, hr.file]⟩

/-! ## Finishing the file -/

variable {hasRedo : Bool}

theorem finishRedo_ok
    (h : r.finishRedo hasRedo m_minLogOffset io = (true, r')) :
    (r.ensureOpen m_minLogOffset io).1 = true ∧
      r'.file = ((r.ensureOpen m_minLogOffset io).2.writeFile endMarker).file := by
  unfold RedoState.finishRedo at h
  unfold ensureOpen
  generalize (if fileHandleValid r.m_redoFd then (true, r)
    else r.openRedoFile true m_minLogOffset io) = opened at h ⊢
  by_cases hopened : opened.1
  · refine ⟨hopened, ?_⟩
    simp only [hopened, if_true] at h
    by_cases hshort : io.dataWritten < 8
    · simp only [hshort, if_true] at h
      cases h
    · have htake : (LE.bytes 8 ENDOF_REDO_NUM).take io.dataWritten = endMarker :=
        List.take_of_length_le (by rw [LE.length_bytes]; omega)
      simp only [hshort, if_false, htake] at h
      unfold RedoState.closeRedo at h
      split at h
      · split at h
        · cases h
          rfl
        · cases h
      · cases h
        rfl
  · simp only [hopened] at h
    cases h

theorem Attached.finishRedo (hr : Attached r bytes)
    (h : r.finishRedo hasRedo m_minLogOffset io = (true, r')) :
    r'.file = some (bytes ++ endMarker) := by
  obtain ⟨-, hfile⟩ := finishRedo_ok h
  rw [hfile, ensureOpen, if_pos hr.valid, (hr.writeFile _).file]

theorem Unopened.finishRedo (hr : Unopened r)
    (h : r.finishRedo hasRedo m_minLogOffset io = (true, r')) :
    r'.file = some (LE.bytes 8 m_minLogOffset ++ endMarker) := by
  obtain ⟨hok, hfile⟩ := finishRedo_ok h
  have hensure : r.ensureOpen m_minLogOffset io = r.openRedoFile true m_minLogOffset io := by
    rw [ensureOpen, hr.invalid]
    rfl
  rw [hensure] at hok hfile
  rw [hfile, ((hr.openRedoFile hok).writeFile _).file]

theorem Detached.finishRedo (hr : Detached r)
    (h : r.finishRedo hasRedo m_minLogOffset io = (true, r')) : r'.file = none := by
  obtain ⟨-, hfile⟩ := finishRedo_ok h
  rw [hfile, ensureOpen, if_pos hr.valid, hr.writeFile, hr.file]

end RedoState

/-- The bytes of the records with the ids from `id` on. -/
def stampAll (id : Nat) : List Record → List UInt8
  | [] => []
  | r :: rs => r.stamped id ++ stampAll (id + 1) rs

theorem length_stampAll (id : Nat) (rs : List Record) :
    (stampAll id rs).length = (rs.map fun r => r.data.length).sum := by
  induction rs generalizing id with
  | nil => rfl
  | cons r rs ih => simp [stampAll, ih]

namespace AppendingBlock

variable {b b' : AppendingBlock I}

/-- Append the records one after the other; `none` if a call does not return `B_OK`. -/
def appendAll (Γ : MetaDataCollection I) :
    List (Record × RedoIo) → AppendingBlock I → Exec (Option (AppendingBlock I))
  | [], b => .ok (some b)
  | (r, io) :: rs, b => do
    let (s, b) ← b.append Γ r io
    if s = .B_OK then appendAll Γ rs b else return none

variable {rs : List (Record × RedoIo)}

theorem appendAll_cons {r : Record} {io : RedoIo}
    (h : appendAll Γ ((r, io) :: rs) b = .ok (some b')) :
    ∃ b₁, b.append Γ r io = .ok (.B_OK, b₁) ∧ appendAll Γ rs b₁ = .ok (some b') := by
  obtain ⟨⟨s, b₁⟩, happend, h⟩ := Exec.of_bind h
  by_cases hs : s = .B_OK
  · subst hs
    exact ⟨b₁, happend, h⟩
  · simp only [hs, if_false] at h
    cases h

theorem append_ok {r : Record} {io : RedoIo} (h : b.append Γ r io = .ok (.B_OK, b')) :
    b.writeRedo r io = (.B_OK, b'.redo) ∧ b'.m_flag = b.m_flag ∧
      b'.m_minRecordId = b.m_minRecordId ∧ b'.m_recordCount = b.m_recordCount + 1 := by
  rcases append_cases h with ⟨hs, -⟩ | ⟨-, b₁, hb₁, hcase⟩
  · cases hs
  · rcases hcase with ⟨hs, -⟩ | ⟨b₂, t, slot, p, redo, hopened, -, hredo, hend⟩
    · cases hs
    · rcases hend with ⟨hs, -⟩ | ⟨-, tables, -, rfl⟩
      · exact absurd rfl hs
      · rw [writeRedo_place hb₁ hopened] at hredo
        refine ⟨hredo, ?_⟩
        -- registering the table and opening a page keep flags and ids
        have h₁ : b₁.m_flag = b.m_flag ∧ b₁.m_minRecordId = b.m_minRecordId ∧
            b₁.m_recordCount + 1 = b.m_recordCount + 1 := by
          rcases getTableData_cases hb₁ with ⟨rfl, -⟩ | ⟨m, t, -, -, -, rfl⟩
          · exact ⟨rfl, rfl, rfl⟩
          · exact ⟨rfl, rfl, rfl⟩
        cases hopened with
        | found => exact h₁
        | made t _ _ _ => exact h₁

theorem append_redo {r : Record} {io : RedoIo} (h : b.append Γ r io = .ok (.B_OK, b'))
    (hflag : b.m_flag.hasRedo = true) :
    b.redo.writeRedo b.m_minLogOffset io (r.stamped (b.m_minRecordId + b.m_recordCount)) =
      (.B_OK, b'.redo) := by
  have hwrite := (append_ok h).1
  rw [AppendingBlock.writeRedo, if_pos hflag] at hwrite
  exact hwrite

theorem attached_appendAll {bytes : List UInt8}
    (hflag : b.m_flag.hasRedo = true) (hr : b.redo.Attached bytes)
    (h : appendAll Γ rs b = .ok (some b')) :
    b'.redo.Attached
      (bytes ++ stampAll (b.m_minRecordId + b.m_recordCount) (rs.map Prod.fst)) := by
  induction rs generalizing b bytes with
  | nil =>
    cases h
    rw [List.map_nil, stampAll, List.append_nil]
    exact hr
  | cons x rs ih =>
    obtain ⟨b₁, happend, h⟩ := appendAll_cons h
    obtain ⟨-, hflag₁, hmin, hcount⟩ := append_ok happend
    have hr₁ := hr.writeRedo (append_redo happend hflag)
    rw [← hflag₁] at hflag
    have hall := ih hflag hr₁ h
    rw [hmin, hcount, List.append_assoc] at hall
    exact hall

private theorem detached_appendAll (hflag : b.m_flag.hasRedo = true)
    (hr : b.redo.Detached) (h : appendAll Γ rs b = .ok (some b')) : b'.redo.Detached := by
  induction rs generalizing b with
  | nil =>
    cases h
    exact hr
  | cons x rs ih =>
    obtain ⟨b₁, happend, h⟩ := appendAll_cons h
    obtain ⟨-, hflag₁, -, -⟩ := append_ok happend
    have hr₁ := hr.writeRedo (append_redo happend hflag)
    rw [← hflag₁] at hflag
    exact ih hflag hr₁ h

/-- The first append opens the file and writes the first log offset of the block, which is not set
    yet, as its head. -/
theorem unopened_appendAll {x : Record × RedoIo}
    (hflag : b.m_flag.hasRedo = true) (hr : b.redo.Unopened)
    (h : appendAll Γ (x :: rs) b = .ok (some b')) :
    b'.redo.Attached (LE.bytes 8 b.m_minLogOffset ++
      stampAll (b.m_minRecordId + b.m_recordCount) ((x :: rs).map Prod.fst)) := by
  obtain ⟨b₁, happend, h⟩ := appendAll_cons h
  obtain ⟨-, hflag₁, hmin, hcount⟩ := append_ok happend
  have hr₁ := hr.writeRedo (append_redo happend hflag)
  rw [← hflag₁] at hflag
  have hall := attached_appendAll hflag hr₁ h
  rw [hmin, hcount, List.append_assoc] at hall
  exact hall

/-! ## Crash points -/

/-- `finishRedo`, if the block was finished before the crash. -/
def finished (fin : Option RedoIo) (b : AppendingBlock I) : Bool × RedoState :=
  match fin with
  | none => (true, b.redo)
  | some io => b.redo.finishRedo b.m_flag.hasRedo b.m_minLogOffset io

/-- The end marker, if `finishRedo` was called. -/
def markerOf (fin : Option RedoIo) : List UInt8 := if fin.isSome then endMarker else []

/-- The redo file of a block that starts with descriptor `fd` (the constructor sets `0`). -/
def withRedoFd (b : AppendingBlock I) (fd : Int) : AppendingBlock I :=
  b.setRedo { b.redo with m_redoFd := fd }

/-- The redo file has the records in their order, and the mark of the end behind them. -/
theorem file_of_appendAll {blockId : Nat} {flag : BlockFlag} {bufSize : Nat}
    {flushSize flushPeriod : Int} {startID : Nat} {fd : Int}
    {fin : Option RedoIo} {redo : RedoState} (hflag : flag.hasRedo = true)
    (h : appendAll Γ rs ((create blockId flag bufSize flushSize flushPeriod startID).withRedoFd fd) =
      .ok (some b)) (hfin : b.finished fin = (true, redo)) :
    redo.content = if fd < 0 ∧ (rs ≠ [] ∨ fin.isSome) then
      LE.bytes 8 0 ++ (stampAll startID (rs.map Prod.fst) ++ markerOf fin) else [] := by
  by_cases hfd : fd < 0
  · have hr : RedoState.Unopened ((create blockId flag bufSize flushSize flushPeriod startID :
        AppendingBlock I).withRedoFd fd).redo := by
      exact ⟨decide_eq_false (show ¬ 0 ≤ fd by omega), rfl⟩
    cases rs with
    | nil =>
      cases h
      cases fin with
      | none =>
        cases hfin
        simp [RedoState.content, withRedoFd, setRedo, create]
      | some io =>
        have hfile := hr.finishRedo hfin
        simp only [RedoState.content, hfile, hfd, true_and, Option.isSome_some, or_true, if_true,
          Option.getD_some, List.map_nil, stampAll, List.nil_append, markerOf]
        rfl
    | cons x rs =>
      have hattached := unopened_appendAll hflag hr h
      have hcond : fd < 0 ∧ (x :: rs ≠ [] ∨ fin.isSome = true) :=
        ⟨hfd, Or.inl (List.cons_ne_nil x rs)⟩
      rw [if_pos hcond]
      cases fin with
      | none =>
        cases hfin
        rw [hattached.content]
        simp only [markerOf, Option.isSome_none, Bool.false_eq_true, if_false, List.append_nil]
        rfl
      | some io =>
        have hfile := hattached.finishRedo hfin
        rw [RedoState.content, hfile, Option.getD_some, List.append_assoc]
        rfl
  · have hr : RedoState.Detached ((create blockId flag bufSize flushSize flushPeriod startID :
        AppendingBlock I).withRedoFd fd).redo := by
      exact ⟨decide_eq_true (show 0 ≤ fd by omega), rfl, rfl⟩
    have hdetached := detached_appendAll hflag hr h
    have hfile : redo.file = none := by
      cases fin with
      | none =>
        cases hfin
        exact hdetached.file
      | some io => exact hdetached.finishRedo hfin
    rw [if_neg (by tauto), RedoState.content, hfile]
    rfl

end AppendingBlock

end DBStream.Native
