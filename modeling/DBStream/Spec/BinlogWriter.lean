import DBStream.Native.BinlogFile

/-!
# The write buffer of a binlog file is invisible

The contents of a writer are the bytes of its file and, behind them, the bytes that wait in its
buffer.  A flush moves bytes from one to the other and an accepted event is appended to the
contents, whichever way it takes; so the contents depend on the accepted events only.
-/

namespace DBStream.Native.DATA_SOURCE

/-! ## Files written at their end -/

namespace FileHandle

variable {f : FileHandle} {d : List UInt8}

theorem writeFile_atEnd (h : f.pos = f.bytes.length) :
    f.writeFile d = { f with bytes := f.bytes ++ d, pos := (f.bytes ++ d).length } := by
  have hdrop : f.bytes.drop (f.bytes.length + d.length) = [] := List.drop_eq_nil_of_le (by omega)
  simp [writeFile, h, hdrop]

end FileHandle

namespace WriteBinlogFile

variable {w w' : WriteBinlogFile} {c : WriteCall} {d : List UInt8}

/-- The bytes in the buffer that wait for a flush. -/
def pending (w : WriteBinlogFile) : List UInt8 := w.m_writeBuf.take w.m_writerBufPos

/-- What the file holds once the buffer is flushed. -/
def contents (w : WriteBinlogFile) : List UInt8 := w.m_fileFD.bytes ++ w.pending

/-- The handle stands at the end of the file and the write position inside the buffer. -/
structure Framed (w : WriteBinlogFile) : Prop where
  atEnd : w.m_fileFD.pos = w.m_fileFD.bytes.length
  capacity : w.m_writeBuf.length = w.m_batch
  pos_le : w.m_writerBufPos ≤ w.m_batch

/-- A writer between two calls: its log offset is the length of the contents. -/
structure Sound (w : WriteBinlogFile) : Prop extends Framed w where
  offset : w.m_logOffset = w.contents.length

/-- Two writers on the same log: a step that only moves bytes around leads from one to the other. -/
structure SameLog (w w' : WriteBinlogFile) : Prop where
  framed : Framed w'
  contents : w'.contents = w.contents
  logOffset : w'.m_logOffset = w.m_logOffset
  batch : w'.m_batch = w.m_batch

theorem Framed.length_pending (h : w.Framed) : w.pending.length = w.m_writerBufPos := by
  simp [pending, h.capacity, h.pos_le]

/-! ## The parts of a call -/

theorem Framed.sameLog (h : w.Framed) : SameLog w w := ⟨h, rfl, rfl, rfl⟩

theorem SameLog.syncIf (h : SameLog w w') (b : Bool) : SameLog w (w'.syncIf b) := by
  cases b with
  | false => exact h
  | true => exact ⟨⟨h.framed.atEnd, h.framed.capacity, h.framed.pos_le⟩, h.contents, h.logOffset,
      h.batch⟩

theorem SameLog.stamp (h : SameLog w w') (time : Nat) : SameLog w (w'.stamp time) :=
  ⟨⟨h.framed.atEnd, h.framed.capacity, h.framed.pos_le⟩, h.contents, h.logOffset, h.batch⟩

@[simp] theorem syncIf_pos (b : Bool) : (w.syncIf b).m_writerBufPos = w.m_writerBufPos := by
  cases b <;> rfl

@[simp] theorem stamp_pos (time : Nat) : (w.stamp time).m_writerBufPos = w.m_writerBufPos := rfl

theorem flushBuf_spec (h : w.Framed) (time : Nat) :
    SameLog w (w.flushBuf time).2 ∧ (w.flushBuf time).2.m_writerBufPos = 0 := by
  unfold flushBuf
  by_cases hb : w.m_batch = 0
  · have hpos : w.m_writerBufPos = 0 := by simpa [hb] using h.pos_le
    simp only [hb, ne_eq, not_true_eq_false, if_false]
    exact ⟨(h.sameLog.syncIf _).stamp time, by simpa using hpos⟩
  by_cases hpos : w.m_writerBufPos = 0
  · simp only [hb, hpos, ne_eq, not_false_eq_true, if_true]
    exact ⟨h.sameLog, trivial⟩
  · simp only [hb, hpos, ne_eq, not_false_eq_true, if_true, if_false]
    have hmoved : SameLog w { w.writeOut w.pending with m_writerBufPos := 0 } := by
      have hfile := FileHandle.writeFile_atEnd (d := w.pending) h.atEnd
      refine ⟨⟨?_, h.capacity, Nat.zero_le _⟩, ?_, rfl, rfl⟩
      · simp [writeOut, hfile]
      · show (w.m_fileFD.writeFile w.pending).bytes ++ [] = w.contents
        rw [hfile, List.append_nil, contents]
    exact ⟨(hmoved.syncIf _).stamp time, by simp⟩

theorem writeOut_spec (h : w.Framed) (hpos : w.m_writerBufPos = 0) :
    Framed (w.writeOut d) ∧ (w.writeOut d).contents = w.contents ++ d := by
  have hfile := FileHandle.writeFile_atEnd (d := d) h.atEnd
  refine ⟨⟨?_, h.capacity, h.pos_le⟩, ?_⟩
  · simp [writeOut, hfile]
  · simp [contents, pending, writeOut, hfile, hpos]

theorem copyIn_spec (h : w.Framed) (hfit : w.m_writerBufPos + d.length ≤ w.m_batch) :
    ∃ w', w.copyIn d = some w' ∧ Framed w' ∧ w'.contents = w.contents ++ d ∧
      w'.m_logOffset = w.m_logOffset ∧ w'.m_batch = w.m_batch := by
  have hlen := h.length_pending
  have hfit' : w.m_writerBufPos + d.length ≤ w.m_writeBuf.length := by rwa [h.capacity]
  have htake : (w.m_writeBuf.take w.m_writerBufPos ++ d ++
      w.m_writeBuf.drop (w.m_writerBufPos + d.length)).take (w.m_writerBufPos + d.length) =
      w.pending ++ d := by
    apply List.take_left'
    simpa [pending] using hlen
  simp only [copyIn, hfit', if_true]
  refine ⟨_, rfl, ⟨h.atEnd, ?_, hfit⟩, ?_, rfl, rfl⟩
  · have hcap := h.capacity
    simp
    omega
  · simp only [contents, pending] at htake ⊢
    rw [htake, List.append_assoc]

theorem length_bytes : c.bytes.length = c.binlogSize := RawMemory.length_read

/-- An event goes through the buffer, or past it if it is too long. -/
theorem store_spec (h : w.Framed) :
    ∃ flushed w', w.store c = some (flushed, w') ∧ Framed w' ∧
      w'.contents = w.contents ++ c.bytes ∧ w'.m_logOffset = w.m_logOffset ∧
      w'.m_batch = w.m_batch := by
  have hlen : c.bytes.length = c.binlogSize := length_bytes
  unfold store
  by_cases hb : w.m_batch = 0
  · -- without a buffer the event is written at once
    have hpos : w.m_writerBufPos = 0 := by simpa [hb] using h.pos_le
    obtain ⟨hframed, hcont⟩ := writeOut_spec (d := c.bytes) h hpos
    have hsync := hframed.sameLog.syncIf (w.writeOut c.bytes).m_sync
    simp only [hb, ne_eq, not_true_eq_false, if_false]
    exact ⟨_, _, rfl, hsync.framed, by rw [hsync.contents, hcont], hsync.logOffset,
      hsync.batch.trans hb⟩
  obtain ⟨hflush, hzero⟩ := flushBuf_spec h c.flushTime
  simp only [hb, ne_eq, not_false_eq_true, if_true]
  by_cases hlarge : c.binlogSize > w.m_batch
  · -- an oversized event follows what was pending
    simp only [hlarge, if_true]
    obtain ⟨hframed, hcont⟩ := writeOut_spec (d := c.bytes) hflush.framed hzero
    have hsync := hframed.sameLog.syncIf ((w.flushBuf c.flushTime).2.writeOut c.bytes).m_sync
    replace hsync := hsync.stamp c.flushTime
    exact ⟨_, _, rfl, hsync.framed, by rw [hsync.contents, hcont, hflush.contents],
      hsync.logOffset.trans hflush.logOffset, hsync.batch.trans hflush.batch⟩
  · simp only [hlarge, if_false]
    by_cases hfull : w.m_writerBufPos + c.binlogSize > w.m_batch
    · -- the buffer is flushed first and then takes the event
      obtain ⟨w', hcopy, hframed, hcont, hoff, hbatch⟩ :=
        copyIn_spec (d := c.bytes) hflush.framed (by rw [hzero, hflush.batch, hlen]; omega)
      refine ⟨true, w', ?_, hframed, by rw [hcont, hflush.contents], hoff.trans hflush.logOffset,
        hbatch.trans hflush.batch⟩
      simp [hfull, hcopy]
    · obtain ⟨w', hcopy, hframed, hcont, hoff, hbatch⟩ :=
        copyIn_spec (d := c.bytes) h (by omega)
      simp only [hfull, hcopy, decide_false, Bool.false_eq_true, if_false, not_false_eq_true,
        true_and, Option.bind_eq_bind, Option.bind_some, Option.pure_def]
      by_cases hdue : (w'.m_flushCycle : Int) ≤ c.now - w'.m_lastFlushTime
      · -- the flush test after the copy
        obtain ⟨hflush', -⟩ := flushBuf_spec hframed c.flushTime
        rw [if_pos hdue]
        exact ⟨_, _, rfl, hflush'.framed, by rw [hflush'.contents, hcont],
          hflush'.logOffset.trans hoff, hflush'.batch.trans hbatch⟩
      · rw [if_neg hdue]
        exact ⟨_, _, rfl, hframed, hcont, hoff, hbatch⟩

/-! ## Calls -/

/-- Whether a call writes its event: the call returns 0 and the event is not ignored. -/
def accepts (w : WriteBinlogFile) (c : WriteCall) : Bool :=
  c.binlogSize ≤ c.size ∧ ¬w.ignores c ∧ w.positionFits c

/-- One call: a writer stays sound, and its contents grow by the event exactly when the call returns
0 and does not ignore the event. -/
theorem writeBinlogEvent_spec (h : w.Sound) :
    ∃ ret flushed w', w.writeBinlogEvent c = some (ret, flushed, w') ∧ w'.Sound ∧
      w'.m_batch = w.m_batch ∧
      (w.accepts c = true ↔ ret = 0 ∧ ¬w.ignores c) ∧
      w'.contents = if w.accepts c then w.contents ++ c.bytes else w.contents := by
  have hframed := h.toFramed
  unfold writeBinlogEvent accepts
  by_cases hsize : c.binlogSize > c.size
  · simp only [hsize, if_true]
    refine ⟨_, _, _, rfl, ⟨⟨h.atEnd, h.capacity, h.pos_le⟩, h.offset⟩, rfl, ?_, ?_⟩
    · simp [Nat.not_le.mpr hsize]
    · simp only [Nat.not_le.mpr hsize, false_and, decide_false, Bool.false_eq_true, if_false]
      rfl
  by_cases hign : w.ignores c
  · simp only [hsize, hign, if_true, if_false]
    exact ⟨_, _, _, rfl, h, rfl, by simp, by simp⟩
  by_cases hpos : w.positionFits c
  · obtain ⟨flushed, w', hstore, hframed', hcont, hoff, hbatch⟩ := store_spec (c := c) hframed
    simp only [hsize, hign, hpos, if_false, hstore, Bool.false_eq_true, not_true_eq_false,
      Option.bind_eq_bind, Option.bind_some, Option.pure_def]
    refine ⟨_, _, _, rfl, ⟨⟨hframed'.atEnd, hframed'.capacity, hframed'.pos_le⟩, ?_⟩, hbatch,
      ?_, ?_⟩
    · have hlen : c.bytes.length = c.binlogSize := length_bytes
      show w'.m_logOffset + c.binlogSize = w'.contents.length
      rw [hoff, hcont, List.length_append, h.offset, hlen]
    · simp [Nat.not_lt.mp hsize]
    · simp only [Nat.not_lt.mp hsize, not_false_eq_true, and_self, decide_true, if_true]
      exact hcont
  · simp only [hsize, hign, hpos, if_false, Bool.false_eq_true, not_false_eq_true, if_true]
    refine ⟨_, _, _, rfl, ⟨⟨h.atEnd, h.capacity, h.pos_le⟩, h.offset⟩, rfl, by simp, ?_⟩
    simp only [Bool.false_eq_true, and_false, decide_false, if_false]
    rfl

/-- A sequence of calls: the events that were written, which are those of the calls that returned 0
and did not ignore their event, and the writer afterwards. -/
def writeAll (w : WriteBinlogFile) :
    List WriteCall → Option (List (List UInt8) × WriteBinlogFile)
  | [] => some ([], w)
  | c :: cs => do
    let (ret, _, w') ← w.writeBinlogEvent c
    let (events, w'') ← w'.writeAll cs
    return (if ret = 0 ∧ ¬w.ignores c then c.bytes :: events else events, w'')

/-- The writer of a fresh file, as `setFileInfo` leaves it. -/
def onFresh (batch_size : Nat) (sync : Bool) (flushCycle : Nat) : WriteBinlogFile :=
  ((new batch_size sync flushCycle).setFileInfo .fresh 4).2

theorem onFresh_sound (batch_size : Nat) (sync : Bool) (flushCycle : Nat) :
    (onFresh batch_size sync flushCycle).Sound where
  atEnd := rfl
  capacity := List.length_replicate
  pos_le := Nat.zero_le _
  offset := rfl

theorem writeAll_spec (h : w.Sound) (cs : List WriteCall) :
    ∃ events w', w.writeAll cs = some (events, w') ∧ w'.Sound ∧ w'.m_batch = w.m_batch ∧
      w'.contents = w.contents ++ events.flatten := by
  induction cs generalizing w with
  | nil => exact ⟨[], w, rfl, h, rfl, by simp⟩
  | cons c cs ih =>
    obtain ⟨ret, flushed, w₁, hcall, hsound, hbatch, hacc, hcont⟩ :=
      writeBinlogEvent_spec (c := c) h
    obtain ⟨events, w₂, hrest, hsound₂, hbatch₂, hcont₂⟩ := ih hsound
    simp only [writeAll, hcall, hrest, Option.bind_eq_bind, Option.bind_some, Option.pure_def,
      ← hacc]
    refine ⟨_, w₂, rfl, hsound₂, hbatch₂.trans hbatch, ?_⟩
    rw [hcont₂, hcont]
    cases w.accepts c <;> simp

theorem finish_spec (h : w.Sound) (time : Nat) :
    (w.finish time).1 = 0 ∧ (w.finish time).2.m_fileFD.bytes = w.contents ∧
      (w.finish time).2.m_logOffset = w.contents.length := by
  obtain ⟨hflush, hzero⟩ := flushBuf_spec h.toFramed time
  have hsync : (w.finish time).2 = (w.flushBuf time).2.syncIf !(w.flushBuf time).2.m_sync := rfl
  obtain hlog := hflush.syncIf !(w.flushBuf time).2.m_sync
  rw [← hsync] at hlog
  refine ⟨rfl, ?_, hlog.logOffset.trans h.offset⟩
  have hempty : (w.finish time).2.pending = [] := by simp [pending, hsync, hzero]
  rw [← hlog.contents, contents, hempty, List.append_nil]

/-- For every sequence of calls on a fresh file, whatever the batch size and the clock: the calls
stay inside the write buffer, and after `finish` the file is the magic number and then the events
that were accepted and not ignored, and the log offset its length. -/
theorem writeAll_finish (batch_size : Nat) (sync : Bool) (flushCycle : Nat) (cs : List WriteCall)
    (time : Nat) :
    ∃ events w, (onFresh batch_size sync flushCycle).writeAll cs = some (events, w) ∧
      w.m_writerBufPos ≤ batch_size ∧
      (w.finish time).1 = 0 ∧
      (w.finish time).2.m_fileFD.bytes = headMagicNumber ++ events.flatten ∧
      (w.finish time).2.m_logOffset = (w.finish time).2.m_fileFD.bytes.length := by
  have hstart := onFresh_sound batch_size sync flushCycle
  obtain ⟨events, w, hrun, hsound, hbatch, hcont⟩ := writeAll_spec hstart cs
  obtain ⟨hret, hfile, hoff⟩ := finish_spec hsound time
  have hmagic : (onFresh batch_size sync flushCycle).contents = headMagicNumber := rfl
  have hle : w.m_writerBufPos ≤ batch_size := hsound.pos_le.trans_eq hbatch
  refine ⟨events, w, hrun, hle, hret, ?_, ?_⟩
  · rw [hfile, hcont, hmagic]
  · rw [hoff, hfile]

end WriteBinlogFile

end DBStream.Native.DATA_SOURCE
