import DBStream.Spec.BinlogWriter

/-!
# What the binlog writer accepts and the reader returns

Writer and reader meet at `Chained`: a list of events each of which names its own length and its own
end.  The reader returns such a list event by event, and nothing else: an event it returns has a
length that a header and an `int` can hold, and ends where its log position says.  The writer
accepts only such events, but for a format event whose log position is 0.
-/

namespace DBStream.Native.DATA_SOURCE

/-! ## Events as the reader wants them -/

/-- The lengths of events that the reader can read: a whole header, and a body whose length fits in
an `int`. -/
def Readable (n : Nat) : Prop := LOG_EVENT_MINIMAL_HEADER_LEN ≤ n ∧ n < 2 ^ 31 + 19

instance (n : Nat) : Decidable (Readable n) := inferInstanceAs (Decidable (_ ∧ _))

/-- An event that begins at `off` and says so. -/
structure Placed (off : Nat) (e : List UInt8) : Prop where
  readable : Readable e.length
  len : korr 4 e EVENT_LEN_OFFSET = e.length
  pos : korr 4 e LOG_POS_OFFSET = (off + e.length) % 2 ^ 32

/-- Events one behind the other from `off` on. -/
def Chained : Nat → List (List UInt8) → Prop
  | _, [] => True
  | off, e :: es => Placed off e ∧ Chained (off + e.length) es

def typeOf (e : List UInt8) : UInt8 := e.getD EVENT_TYPE_OFFSET 0

namespace ReadBinlogFile

variable {r r' : ReadBinlogFile} {crc32 : List UInt8 → Nat} {off : Nat} {e : List UInt8}
  {es : List (List UInt8)}

/-! ## What the reader returns -/

/-- The reader returns the events one by one, each with return value 0, and then -1 with
`BINLOG_ERR_EOF`. -/
def Replays (crc32 : List UInt8 → Nat) (r : ReadBinlogFile) : List (List UInt8) → Prop
  | [] => ∃ r', r.readBinlogEvent crc32 = some (-1, none, r') ∧ r'.m_err = BINLOG_ERR_EOF
  | e :: es => ∃ r', r.readBinlogEvent crc32 = some (0, some e, r') ∧ r'.Replays crc32 es

/-- A rotate event made up by the reader: it is marked as artificial and names the file and the
offset at which the events begin. -/
structure IsFakeRotate (filePath e : List UInt8) : Prop where
  type : typeOf e = ROTATE_EVENT
  pos : korr 4 e LOG_POS_OFFSET = 0
  flags : korr 2 e FLAGS_OFFSET = LOG_EVENT_ARTIFICIAL_F
  offset : korr 8 e LOG_EVENT_HEADER_LEN = 4
  name : e.slice (LOG_EVENT_HEADER_LEN + ROTATE_HEADER_LEN) (fileNameOf filePath).length =
    fileNameOf filePath

@[simp] theorem reserve_status (n : Nat) : (r.reserve n).m_status = r.m_status := by
  unfold reserve
  split_ifs <;> rfl

@[simp] theorem reserve_readBuf (n : Nat) : (r.reserve n).m_readBuf = r.m_readBuf := by
  unfold reserve
  split_ifs <;> rfl

@[simp] theorem reserve_offset (n : Nat) :
    (r.reserve n).m_logEventOffset = r.m_logEventOffset := by
  unfold reserve
  split_ifs <;> rfl

@[simp] theorem reserve_fileFD (n : Nat) : (r.reserve n).m_fileFD = r.m_fileFD := by
  unfold reserve
  split_ifs <;> rfl

@[simp] theorem reserve_err (n : Nat) : (r.reserve n).m_err = r.m_err := by
  unfold reserve
  split_ifs <;> rfl

theorem readBody_inv {n : Nat} (h : r.readBody n = (0, r')) :
    ∃ body, r'.m_readBuf = r.m_readBuf ++ body ∧ body.length = n - 19 ∧ body.length < 2 ^ 31 ∧
      korr 4 r'.m_readBuf LOG_POS_OFFSET = (r.m_logEventOffset + n) % 2 ^ 32 ∧
      r'.m_status = r.m_status := by
  unfold readBody at h
  generalize r.m_fileFD.readFile (n - LOG_EVENT_MINIMAL_HEADER_LEN) = x at h
  obtain ⟨body, fd⟩ := x
  simp only at h
  split_ifs at h with hint hlen
  · simp at h
  · simp at h
  unfold checkPosition at h
  split_ifs at h with hpos
  · simp at h
  simp only [Prod.mk.injEq, true_and] at h
  subst h
  rw [not_not, LOG_EVENT_MINIMAL_HEADER_LEN] at hlen
  exact ⟨body, rfl, hlen.symm, by omega, by simpa using hpos, rfl⟩

/-- `readBinlog` succeeds only on an event with a readable length that ends where its log position
says. -/
theorem readBinlog_inv (h : r.readBinlog = (0, r')) :
    Placed r.m_logEventOffset r'.m_readBuf ∧ r'.m_status = r.m_status := by
  unfold readBinlog at h
  generalize r.m_fileFD.readFile LOG_EVENT_MINIMAL_HEADER_LEN = x at h
  obtain ⟨head, fd⟩ := x
  simp only at h
  split_ifs at h with herr hnone hhead hsize
  · simp at h
  · simp at h
  · simp at h
  · simp at h
  rw [not_not] at hhead
  obtain ⟨body, hbuf, hbody, hint, hpos, hstatus⟩ := readBody_inv h
  simp only [reserve_status, reserve_readBuf, reserve_offset] at hbuf hpos hstatus
  simp only [LOG_EVENT_MINIMAL_HEADER_LEN] at hhead hsize
  have hn : r'.m_readBuf.length = korr 4 head EVENT_LEN_OFFSET := by
    rw [hbuf, List.length_append, hhead, hbody]
    omega
  have hlen : korr 4 r'.m_readBuf EVENT_LEN_OFFSET = r'.m_readBuf.length := by
    rw [hn, hbuf, korr, List.slice_append_left body (by rw [hhead]; decide), korr]
  refine ⟨⟨⟨?_, ?_⟩, hlen, by rw [hpos, hn]⟩, hstatus⟩
  · rw [hn]
    exact Nat.not_lt.mp hsize
  · rw [hbuf, List.length_append, hhead]
    omega

/-- Past the format event: every further event is read from the file. -/
def InData (r : ReadBinlogFile) : Prop :=
  r.m_status = .BINLOG_READ_DATA ∨ r.m_status = .BINLOG_READ_END

private theorem endAtRotate_inData {n : Nat} (h : r.endAtRotate n = some r') : r'.InData := by
  simp only [endAtRotate, Option.ite_none_left_eq_some, Option.some.injEq] at h
  obtain ⟨-, rfl⟩ := h
  exact .inr rfl

private theorem endAtStop_inData (h : r.InData) : r.endAtStop.2.InData := by
  unfold endAtStop
  split
  · split
    · exact .inr rfl
    · exact .inr rfl
  · exact h

theorem deliver_inv (hlen : korr 4 r.m_readBuf EVENT_LEN_OFFSET = r.m_readBuf.length)
    (hdata : r.InData) (h : r.deliver = some (0, some e, r')) :
    e = r.m_readBuf ∧ r'.InData := by
  unfold deliver at h
  simp only [hlen, List.take_length] at h
  by_cases hrotate : r.eventType = ROTATE_EVENT
  · simp only [hrotate, if_true, Option.map_eq_some_iff, Prod.mk.injEq, Option.some.injEq,
      true_and] at h
    obtain ⟨r₁, hend, he, rfl⟩ := h
    exact ⟨he.symm, endAtRotate_inData hend⟩
  by_cases hstop : r.eventType = STOP_EVENT
  · have hend := endAtStop_inData hdata
    generalize r.endAtStop = x at h hend
    obtain ⟨ret, r₁⟩ := x
    rw [if_neg hrotate, if_pos hstop] at h
    simp only [Option.some.injEq, Prod.mk.injEq] at h
    obtain ⟨rfl, he, rfl⟩ := h
    simp only [if_true, Option.some.injEq] at he
    exact ⟨he.symm, hend⟩
  · simp only [hrotate, hstop, if_false, Option.some.injEq, Prod.mk.injEq, true_and] at h
    obtain ⟨he, rfl⟩ := h
    exact ⟨he.symm, hdata⟩

theorem readBinlogEvent_data (hdata : r.InData) (herr : r.m_err = 0) :
    r.readBinlogEvent crc32 =
      if r.readBinlog.1 ≠ 0 then some (-1, none, r.readBinlog.2) else r.readBinlog.2.deliver := by
  unfold readBinlogEvent
  rw [herr]
  obtain hdata | hdata := hdata <;> rw [hdata] <;> rfl

theorem readBinlogEvent_fake (herr : r.m_err = 0)
    (hstatus : r.m_status = .BINLOG_READ_FAKE_ROTATE) :
    r.readBinlogEvent crc32 = some (0, r.fakeRotateEvent crc32,
      { r with
        m_readBuf := (r.fakeRotateEvent crc32).getD r.m_readBuf
        m_status := .BINLOG_READ_FORMAT }) := by
  unfold readBinlogEvent
  rw [if_neg (not_not.mpr herr), hstatus]

theorem readBinlogEvent_format (herr : r.m_err = 0) (hstatus : r.m_status = .BINLOG_READ_FORMAT) :
    r.readBinlogEvent crc32 =
      if r.readFormatEvent.1 ≠ 0 then some (-1, none, r.readFormatEvent.2)
      else deliver { r.readFormatEvent.2 with m_status := .BINLOG_READ_DATA } := by
  unfold readBinlogEvent
  rw [if_neg (not_not.mpr herr), hstatus]

private theorem readBinlogEvent_inv (hdata : r.InData)
    (h : r.readBinlogEvent crc32 = some (0, some e, r')) : Readable e.length ∧ r'.InData := by
  by_cases herr : r.m_err = 0
  · rw [readBinlogEvent_data hdata herr] at h
    split_ifs at h with hret
    · simp at h
    obtain ⟨hplaced, hstatus⟩ := readBinlog_inv (Prod.ext (not_not.mp hret) rfl)
    obtain ⟨rfl, hdata'⟩ := deliver_inv hplaced.len (by rwa [InData, hstatus]) h
    exact ⟨hplaced.readable, hdata'⟩
  · simp [readBinlogEvent, herr] at h

theorem readFormatEvent_eq (herr : r.m_err = 0) (hoff : r.m_logEventOffset = 4)
    {r₁ : ReadBinlogFile} (hread : r.readBinlog = (0, r₁))
    (htype : r₁.eventType = FORMAT_DESCRIPTION_EVENT) :
    r.readFormatEvent = (0,
      { r₁ with
        m_crc := r₁.m_readBuf.getD (r₁.m_readBuf.length - 5) 0
        m_serverId := korr 4 r₁.m_readBuf SERVER_ID_OFFSET }) := by
  have hset : (r._setPosition 4).2 = r := by
    cases r
    simp_all [_setPosition]
  obtain ⟨hplaced, -⟩ := readBinlog_inv hread
  have hpos := hplaced.pos
  have hlen := hplaced.len
  rw [hoff, Nat.add_comm] at hpos
  simp [readFormatEvent, hset, hoff, hread, htype, hpos, hlen, BINLOG_CHECKSUM_LEN,
    BINLOG_CHECKSUM_ALG_DESC_LEN, Nat.sub_sub]

theorem readFormat_inv (hstatus : r.m_status = .BINLOG_READ_FORMAT)
    (hoff : r.m_logEventOffset = 4) (h : r.readBinlogEvent crc32 = some (0, some e, r')) :
    Placed 4 e ∧ r'.InData := by
  by_cases herr : r.m_err = 0
  · have hset : (r._setPosition 4).2 = r := by
      cases r
      simp_all [_setPosition]
    have hret : r.readBinlog.1 = 0 ∧ r.readBinlog.2.eventType = FORMAT_DESCRIPTION_EVENT := by
      by_contra hno
      have hfail : r.readFormatEvent.1 = -1 := by
        rw [not_and_or] at hno
        simp [readFormatEvent, hset, hno]
      simp [readBinlogEvent, herr, hstatus, hfail] at h
    have hread : r.readBinlog = (0, r.readBinlog.2) := Prod.ext hret.1 rfl
    obtain ⟨hplaced, -⟩ := readBinlog_inv hread
    have hformat := readFormatEvent_eq herr hoff hread hret.2
    simp only [readBinlogEvent, herr, hstatus, hformat] at h
    rw [hoff] at hplaced
    obtain ⟨rfl, hdata⟩ := deliver_inv (r := { r.readBinlog.2 with
        m_crc := r.readBinlog.2.m_readBuf.getD (r.readBinlog.2.m_readBuf.length - 5) 0
        m_serverId := korr 4 r.readBinlog.2.m_readBuf SERVER_ID_OFFSET
        m_status := .BINLOG_READ_DATA }) hplaced.len (.inl rfl) (by simpa using h)
    exact ⟨hplaced, hdata⟩
  · simp [readBinlogEvent, herr] at h

/-- Whatever the file: of the events that a reader returns from the beginning of the data on, each
has a readable length. -/
theorem replays_inv (hdata : r.InData) (h : r.Replays crc32 es) : ∀ e ∈ es, Readable e.length := by
  induction es generalizing r with
  | nil => simp
  | cons e es ih =>
    obtain ⟨r', hcall, hrest⟩ := h
    obtain ⟨hread, hdata'⟩ := readBinlogEvent_inv hdata hcall
    intro x hx
    obtain rfl | hx := List.mem_cons.mp hx
    · exact hread
    · exact ih hdata' hrest x hx

/-! ## Events that are returned -/

/-- The reader stands at `off`, and `es` is what the file holds from there on. -/
structure Reading (r : ReadBinlogFile) (off : Nat) (es : List (List UInt8)) : Prop where
  err : r.m_err = 0
  pos : r.m_fileFD.pos = off
  offset : r.m_logEventOffset = off
  rest : r.m_fileFD.bytes.drop off = es.flatten

theorem readBody_spec (hplaced : Placed r.m_logEventOffset e) (hhead : r.m_readBuf = e.take 19)
    (hbody : r.m_fileFD.bytes.slice r.m_fileFD.pos (e.length - 19) = e.drop 19) :
    r.readBody e.length = (0,
      { r with
        m_fileFD := { r.m_fileFD with pos := r.m_fileFD.pos + (e.length - 19) }
        m_readBuf := e
        m_logEventOffset := r.m_logEventOffset + e.length }) := by
  obtain ⟨-, hmax⟩ := hplaced.readable
  have hread : r.m_fileFD.readFile (e.length - LOG_EVENT_MINIMAL_HEADER_LEN) =
      (e.drop 19, { r.m_fileFD with pos := r.m_fileFD.pos + (e.length - 19) }) := by
    simp [FileHandle.readFile, LOG_EVENT_MINIMAL_HEADER_LEN, hbody]
  have hint : ¬2 ^ 31 ≤ e.length - 19 := by omega
  unfold readBody
  rw [hread]
  simp only [hhead, List.take_append_drop, List.length_drop, ge_iff_le, hint, if_false, ne_eq,
    LOG_EVENT_MINIMAL_HEADER_LEN, not_true_eq_false, checkPosition, hplaced.pos]

theorem readBinlog_spec (h : r.Reading off (e :: es)) (hplaced : Placed off e) :
    ∃ r', r.readBinlog = (0, r') ∧ r'.m_readBuf = e ∧ r'.Reading (off + e.length) es ∧
      r'.m_status = r.m_status := by
  obtain ⟨hmin, -⟩ := hplaced.readable
  simp only [LOG_EVENT_MINIMAL_HEADER_LEN] at hmin
  have hrest : r.m_fileFD.bytes.drop off = e ++ es.flatten := h.rest
  have hbody : r.m_fileFD.bytes.slice (off + 19) (e.length - 19) = e.drop 19 := by
    rw [List.slice, ← List.drop_drop, hrest, List.drop_append_of_le_length hmin,
      List.take_append_of_le_length (by simp), List.take_of_length_le (by simp)]
  have hlen : korr 4 (e.take 19) EVENT_LEN_OFFSET = e.length := by
    rw [← hplaced.len, korr, korr]
    conv_rhs => rw [← List.take_append_drop 19 e]
    rw [List.slice_append_left _ (by simp [hmin, EVENT_LEN_OFFSET])]
  have hread : r.m_fileFD.readFile LOG_EVENT_MINIMAL_HEADER_LEN =
      (e.take 19, { r.m_fileFD with pos := off + 19 }) := by
    have hhead : r.m_fileFD.bytes.slice off 19 = e.take 19 := by
      rw [List.slice, hrest, List.take_append_of_le_length hmin]
    simp [FileHandle.readFile, LOG_EVENT_MINIMAL_HEADER_LEN, h.pos, hhead, hmin]
  -- the reader with the header in its buffer
  let r₁ := reserve { r with
    m_fileFD := { r.m_fileFD with pos := off + 19 }
    m_readBuf := e.take 19 } e.length
  have hstart : r.readBinlog = r₁.readBody e.length := by
    unfold readBinlog
    rw [hread]
    simp [h.err, hlen, Nat.not_lt.mpr hmin, LOG_EVENT_MINIMAL_HEADER_LEN, hmin, r₁]
  have hfinal := readBody_spec (r := r₁) (e := e) (by simpa [r₁, h.offset] using hplaced)
    (by simp [r₁]) (by simpa [r₁] using hbody)
  refine ⟨_, hstart.trans hfinal, rfl, ⟨?_, ?_, ?_, ?_⟩, by simp [r₁]⟩
  · simpa [r₁] using h.err
  · simp only [reserve_fileFD, r₁]
    omega
  · simp [r₁, h.offset]
  · simp only [reserve_fileFD, r₁]
    rw [← List.drop_drop, hrest, List.drop_left]

theorem readBinlog_eof (h : r.Reading off []) :
    ∃ r', r.readBinlog = (-1, r') ∧ r'.m_err = BINLOG_ERR_EOF := by
  have hread : (r.m_fileFD.readFile LOG_EVENT_MINIMAL_HEADER_LEN).1 = [] := by
    simp [FileHandle.readFile, List.slice, h.pos, h.rest]
  generalize hx : r.m_fileFD.readFile LOG_EVENT_MINIMAL_HEADER_LEN = x at hread
  obtain ⟨head, fd⟩ := x
  subst hread
  simp only [readBinlog, h.err, hx]
  exact ⟨_, rfl, rfl⟩

theorem deliver_spec (hlen : korr 4 r.m_readBuf EVENT_LEN_OFFSET = r.m_readBuf.length)
    (hrotate : typeOf r.m_readBuf ≠ ROTATE_EVENT) (hstop : typeOf r.m_readBuf ≠ STOP_EVENT) :
    r.deliver = some (0, some r.m_readBuf, r) := by
  have hrotate' : r.eventType ≠ ROTATE_EVENT := hrotate
  have hstop' : r.eventType ≠ STOP_EVENT := hstop
  simp [deliver, hrotate', hstop', hlen]

theorem replays_of_chained (hdata : r.InData) (h : r.Reading off es) (hchain : Chained off es)
    (htype : ∀ e ∈ es, typeOf e ≠ ROTATE_EVENT ∧ typeOf e ≠ STOP_EVENT) :
    r.Replays crc32 es := by
  induction es generalizing r off with
  | nil =>
    obtain ⟨r', hread, herr⟩ := readBinlog_eof h
    refine ⟨r', ?_, herr⟩
    simp [readBinlogEvent_data hdata h.err, hread]
  | cons e es ih =>
    obtain ⟨hplaced, hchain⟩ := hchain
    obtain ⟨r', hread, rfl, hrest, hstatus⟩ := readBinlog_spec h hplaced
    obtain ⟨hrotate, hstop⟩ := htype _ List.mem_cons_self
    have hdata' : r'.InData := by rwa [InData, hstatus]
    refine ⟨r', ?_, ih hdata' hrest hchain fun e he => htype e (List.mem_cons_of_mem _ he)⟩
    simp [readBinlogEvent_data hdata h.err, hread, deliver_spec hplaced.len hrotate hstop]

/-! ## A reader that has just been opened -/

variable {filePath : List UInt8} {crc : UInt8}

theorem new_reading (filePath : List UInt8) (crc : UInt8) (es : List (List UInt8)) :
    (new filePath (headMagicNumber ++ es.flatten) crc).Reading 4 es ∧
      (new filePath (headMagicNumber ++ es.flatten) crc).m_status = .BINLOG_READ_FAKE_ROTATE ∧
      (new filePath (headMagicNumber ++ es.flatten) crc).m_filePath = filePath := by
  have hmagic : headMagicNumber.length = 4 := rfl
  simp only [new, setPosition, _setPosition, FileHandle.seekEnd, FileHandle.seekSet]
  simp [hmagic]
  exact ⟨rfl, rfl, rfl, List.drop_left' hmagic⟩

theorem fakeRotateEvent_spec (crc32 : List UInt8 → Nat) (hpath : r.m_filePath ≠ [])
    (hoff : r.m_logEventOffset = 4) :
    ∃ e, r.fakeRotateEvent crc32 = some e ∧ IsFakeRotate r.m_filePath e := by
  -- the checksum at the end, if there is one, is behind every field
  have hfields (tail : List UInt8) : IsFakeRotate r.m_filePath (r.fakeRotateBytes ++ tail) := by
    constructor
    · simp [typeOf, fakeRotateBytes, LE.bytes, EVENT_TYPE_OFFSET]
    · simp [korr, fakeRotateBytes, LE.bytes, LOG_POS_OFFSET, List.slice]
    · simp [korr, fakeRotateBytes, LE.bytes, FLAGS_OFFSET, List.slice, LOG_EVENT_ARTIFICIAL_F]
    · simp [korr, fakeRotateBytes, LE.bytes, LOG_EVENT_HEADER_LEN, List.slice, hoff]
    · simp [fakeRotateBytes, LE.bytes, LOG_EVENT_HEADER_LEN, ROTATE_HEADER_LEN, List.slice]
  unfold fakeRotateEvent
  rw [if_neg hpath]
  split_ifs
  · exact ⟨_, rfl, hfields _⟩
  · exact ⟨_, rfl, by simpa using hfields []⟩

/-- The events that a freshly opened reader returns behind the fake rotate: the first is placed at
offset 4, and every one has a readable length. -/
theorem replays_new_inv {file : List UInt8} {fake : List UInt8}
    (hoff : (new filePath file crc).m_logEventOffset = 4)
    (hstatus : (new filePath file crc).m_status = .BINLOG_READ_FAKE_ROTATE)
    (h : (new filePath file crc).Replays crc32 (fake :: e :: es)) :
    Placed 4 e ∧ ∀ x ∈ es, Readable x.length := by
  obtain ⟨r₁, hfake, r₂, hformat, hrest⟩ := h
  have herr : (new filePath file crc).m_err = 0 := by
    by_contra herr
    simp [readBinlogEvent, herr] at hfake
  rw [readBinlogEvent_fake herr hstatus] at hfake
  simp only [Option.some.injEq, Prod.mk.injEq, true_and] at hfake
  obtain ⟨-, rfl⟩ := hfake
  obtain ⟨hplaced, hdata⟩ := readFormat_inv (by rfl) (by exact hoff) hformat
  exact ⟨hplaced, replays_inv hdata hrest⟩

/-- A new reader gives a rotate event of its own, then the events of the file. -/
theorem replays_new (crc : UInt8) (crc32 : List UInt8 → Nat) (hpath : filePath ≠ [])
    (hchain : Chained 4 (e :: es))
    (hformat : typeOf e = FORMAT_DESCRIPTION_EVENT)
    (htype : ∀ x ∈ es, typeOf x ≠ ROTATE_EVENT ∧ typeOf x ≠ STOP_EVENT) :
    ∃ fake, IsFakeRotate filePath fake ∧
      (new filePath (headMagicNumber ++ (e :: es).flatten) crc).Replays crc32
        (fake :: e :: es) := by
  obtain ⟨hreading, hstatus, hfile⟩ := new_reading filePath crc (e :: es)
  generalize new filePath (headMagicNumber ++ (e :: es).flatten) crc = r at hreading hstatus hfile
  subst hfile
  obtain ⟨fake, hfake, his⟩ := fakeRotateEvent_spec crc32 hpath hreading.offset
  refine ⟨fake, his, { r with m_readBuf := fake, m_status := .BINLOG_READ_FORMAT }, ?_, ?_⟩
  · rw [readBinlogEvent_fake hreading.err hstatus, hfake, Option.getD_some]
  obtain ⟨hplaced, hchain⟩ := hchain
  have hreading' : Reading { r with m_readBuf := fake, m_status := .BINLOG_READ_FORMAT } 4
      (e :: es) := ⟨hreading.err, hreading.pos, hreading.offset, hreading.rest⟩
  obtain ⟨r₁, hread, hbuf, hrest, -⟩ := readBinlog_spec hreading' hplaced
  have hformat' : r₁.eventType = FORMAT_DESCRIPTION_EVENT := by
    rw [← hbuf] at hformat
    exact hformat
  have hfmt := readFormatEvent_eq hreading'.err hreading'.offset hread hformat'
  have hnorotate : typeOf r₁.m_readBuf ≠ ROTATE_EVENT := by rw [hbuf, hformat]; decide
  have hnostop : typeOf r₁.m_readBuf ≠ STOP_EVENT := by rw [hbuf, hformat]; decide
  let r₂ : ReadBinlogFile :=
    { r₁ with
      m_crc := r₁.m_readBuf.getD (r₁.m_readBuf.length - 5) 0
      m_serverId := korr 4 r₁.m_readBuf SERVER_ID_OFFSET
      m_status := .BINLOG_READ_DATA }
  have hdeliver : r₂.deliver = some (0, some e, r₂) := by
    have hlen : korr 4 r₁.m_readBuf EVENT_LEN_OFFSET = r₁.m_readBuf.length := by
      rw [hbuf]
      exact hplaced.len
    have := deliver_spec (r := r₂) hlen hnorotate hnostop
    rwa [show r₂.m_readBuf = e from hbuf] at this
  have hrest' : r₂.Reading (4 + e.length) es := ⟨hrest.err, hrest.pos, hrest.offset, hrest.rest⟩
  refine ⟨r₂, ?_, replays_of_chained (.inl rfl) hrest' hchain htype⟩
  rw [readBinlogEvent_format hreading'.err rfl, hfmt]
  exact hdeliver

end ReadBinlogFile

namespace WriteBinlogFile

variable {w w' : WriteBinlogFile} {c : WriteCall} {cs : List WriteCall}

/-! ## What the writer accepts -/

def AcceptsAll (w : WriteBinlogFile) : List WriteCall → Prop
  | [] => True
  | c :: cs => ∃ flushed w', w.writeBinlogEvent c = some (0, flushed, w') ∧ w'.AcceptsAll cs

/-- The calls whose event is written behind the first event of the file: all but those with a
further format event. -/
def kept (cs : List WriteCall) : List WriteCall :=
  cs.filter (·.eventType ≠ FORMAT_DESCRIPTION_EVENT)

theorem korr_bytes {w off : Nat} (h : off + w ≤ c.binlogSize) :
    korr w c.bytes off = c.binlogEvent.readWord w off := by
  rw [korr, WriteCall.bytes, RawMemory.slice_read h, Nat.zero_add, RawMemory.readWord]

theorem typeOf_bytes (h : LOG_EVENT_MINIMAL_HEADER_LEN ≤ c.binlogSize) :
    typeOf c.bytes = c.eventType := by
  have hlt : EVENT_TYPE_OFFSET < c.binlogSize := Nat.lt_of_lt_of_le (by decide) h
  simp [typeOf, WriteCall.bytes, RawMemory.read, WriteCall.eventType, hlt]

theorem placed_bytes {off : Nat} (hread : Readable c.binlogSize)
    (hpos : c.binlogOffset = (off + c.binlogSize) % 2 ^ 32) : Placed off c.bytes := by
  have hmin : 19 ≤ c.binlogSize := hread.1
  have hlen : c.bytes.length = c.binlogSize := length_bytes
  refine ⟨by rwa [hlen], ?_, ?_⟩
  · rw [hlen, korr_bytes (by simp only [EVENT_LEN_OFFSET]; omega), WriteCall.binlogSize]
  · rw [hlen, korr_bytes (by simp only [LOG_POS_OFFSET]; omega), ← hpos, WriteCall.binlogOffset]

/-- Behind the first event, an accepted call either ignores a format event or appends an event at
its log position. -/
theorem accepted_step (h : w.Sound) (hoff : 4 < w.m_logOffset) {flushed : Bool}
    (hcall : w.writeBinlogEvent c = some (0, flushed, w')) :
    w'.Sound ∧
      (c.eventType = FORMAT_DESCRIPTION_EVENT ∧ w.ignores c = true ∧
          w'.m_logOffset = w.m_logOffset ∨
        c.eventType ≠ FORMAT_DESCRIPTION_EVENT ∧ w.ignores c = false ∧
          w'.m_logOffset = w.m_logOffset + c.binlogSize ∧
          c.binlogOffset = (w.m_logOffset + c.binlogSize) % 2 ^ 32) := by
  obtain ⟨ret, fl, w₁, hcall', hsound, -, hacc, hcont⟩ := writeBinlogEvent_spec (c := c) h
  obtain ⟨rfl, rfl, rfl⟩ : 0 = ret ∧ flushed = fl ∧ w' = w₁ := by
    simpa [hcall] using hcall'
  refine ⟨hsound, ?_⟩
  have hlen : c.bytes.length = c.binlogSize := length_bytes
  by_cases hformat : c.eventType = FORMAT_DESCRIPTION_EVENT
  · left
    have hign : w.ignores c = true := by simp [ignores, hformat, hoff]
    have hno : w.accepts c = false := by simp [accepts, hign]
    rw [hno] at hcont
    exact ⟨hformat, hign, by rw [hsound.offset, hcont, h.offset]; rfl⟩
  · right
    have hign : w.ignores c = false := by simp [ignores, hformat]
    have hyes : w.accepts c = true := hacc.mpr ⟨rfl, by simp [hign]⟩
    rw [hyes, if_pos rfl] at hcont
    refine ⟨hformat, hign, by rw [hsound.offset, hcont, List.length_append, ← h.offset, hlen], ?_⟩
    have hfits : w.positionFits c = true := by
      simp only [accepts, decide_eq_true_eq] at hyes
      exact hyes.2.2
    simpa [positionFits, hformat] using hfits

theorem writeAll_chained (h : w.Sound) (hoff : 4 < w.m_logOffset) (hacc : w.AcceptsAll cs)
    (hread : ∀ c ∈ kept cs, Readable c.binlogSize) :
    ∃ w', w.writeAll cs = some ((kept cs).map (·.bytes), w') ∧
      Chained w.m_logOffset ((kept cs).map (·.bytes)) := by
  induction cs generalizing w with
  | nil => exact ⟨w, rfl, trivial⟩
  | cons c cs ih =>
    obtain ⟨flushed, w₁, hcall, hacc⟩ := hacc
    obtain ⟨hsound, hstep⟩ := accepted_step h hoff hcall
    obtain ⟨hformat, hign, hsame⟩ | ⟨hformat, hign, hgrown, hpos⟩ := hstep
    · have hkept : kept (c :: cs) = kept cs := by simp [kept, hformat]
      rw [hkept] at hread ⊢
      obtain ⟨w', hrest, hchain⟩ := ih hsound (by omega) hacc hread
      refine ⟨w', ?_, hsame ▸ hchain⟩
      simp [writeAll, hcall, hrest, hign]
    · have hkept : kept (c :: cs) = c :: kept cs := by simp [kept, hformat]
      rw [hkept] at hread ⊢
      obtain ⟨w', hrest, hchain⟩ := ih hsound (by omega) hacc fun x hx =>
        hread x (List.mem_cons_of_mem _ hx)
      have hlen : c.bytes.length = c.binlogSize := length_bytes
      refine ⟨w', by simp [writeAll, hcall, hrest, hign], ?_, ?_⟩
      · exact placed_bytes (hread c List.mem_cons_self) hpos
      · rw [hlen, ← hgrown]
        exact hchain

theorem first_step {fmt : WriteCall} (h : w.Sound) (hoff : w.m_logOffset = 4)
    (hformat : fmt.eventType = FORMAT_DESCRIPTION_EVENT) {flushed : Bool}
    (hcall : w.writeBinlogEvent fmt = some (0, flushed, w')) :
    w'.Sound ∧ w.ignores fmt = false ∧ w'.m_logOffset = 4 + fmt.binlogSize ∧
      (fmt.binlogOffset = (4 + fmt.binlogSize) % 2 ^ 32 ∨ fmt.binlogOffset = 0) := by
  obtain ⟨ret, fl, w₁, hcall', hsound, -, hacc, hcont⟩ := writeBinlogEvent_spec (c := fmt) h
  obtain ⟨rfl, rfl, rfl⟩ : 0 = ret ∧ flushed = fl ∧ w' = w₁ := by
    simpa [hcall] using hcall'
  have hign : w.ignores fmt = false := by simp [ignores, hoff]
  have hyes : w.accepts fmt = true := hacc.mpr ⟨rfl, by simp [hign]⟩
  have hlen : fmt.bytes.length = fmt.binlogSize := length_bytes
  rw [hyes, if_pos rfl] at hcont
  refine ⟨hsound, hign, ?_, ?_⟩
  · rw [hsound.offset, hcont, List.length_append, ← h.offset, hoff, hlen]
  · have hfits : w.positionFits fmt = true := by
      simp only [accepts, decide_eq_true_eq] at hyes
      exact hyes.2.2
    simpa [positionFits, hoff, hformat] using hfits

/-- The bytes of the file after the calls `cs` on a fresh file and `finish`. -/
def binlogOf (batch_size : Nat) (sync : Bool) (flushCycle : Nat) (cs : List WriteCall)
    (time : Nat) : Option (List UInt8) :=
  ((onFresh batch_size sync flushCycle).writeAll cs).map fun x =>
    (x.2.finish time).2.m_fileFD.bytes

theorem binlogOf_eq (batch_size : Nat) (sync : Bool) (flushCycle : Nat) (cs : List WriteCall)
    (time : Nat) :
    ∃ events w, (onFresh batch_size sync flushCycle).writeAll cs = some (events, w) ∧
      binlogOf batch_size sync flushCycle cs time =
        some (headMagicNumber ++ events.flatten) := by
  have hstart := onFresh_sound batch_size sync flushCycle
  obtain ⟨events, w, hrun, hsound, -, hcont⟩ := writeAll_spec hstart cs
  obtain ⟨-, hfile, -⟩ := finish_spec hsound time
  refine ⟨events, w, hrun, ?_⟩
  rw [binlogOf, hrun, Option.map_some, hfile, hcont]
  rfl

/-- The reader returns what was written from a run whose events are readable and whose format event
has a log position. -/
theorem replays_of_accepted {filePath : List UInt8} {crc : UInt8} {crc32 : List UInt8 → Nat}
    (hpath : filePath ≠ []) {batch_size : Nat} {sync : Bool} {flushCycle time : Nat}
    {fmt : WriteCall} (hformat : fmt.eventType = FORMAT_DESCRIPTION_EVENT)
    (htype : ∀ c ∈ cs, c.eventType ≠ ROTATE_EVENT ∧ c.eventType ≠ STOP_EVENT)
    (hacc : (onFresh batch_size sync flushCycle).AcceptsAll (fmt :: cs))
    (hpos : fmt.binlogOffset ≠ 0) (hread : ∀ c ∈ fmt :: kept cs, Readable c.binlogSize) :
    ∃ file fake, binlogOf batch_size sync flushCycle (fmt :: cs) time = some file ∧
      ReadBinlogFile.IsFakeRotate filePath fake ∧
      (ReadBinlogFile.new filePath file crc).Replays crc32
        (fake :: fmt.bytes :: (kept cs).map (·.bytes)) := by
  obtain ⟨flushed, w, hcall, hacc⟩ := hacc
  obtain ⟨hsound, hign, hoff, hpos'⟩ :=
    first_step (onFresh_sound batch_size sync flushCycle) rfl hformat hcall
  have hfmt := hread fmt List.mem_cons_self
  have hplaced : Placed 4 fmt.bytes := placed_bytes hfmt (hpos'.resolve_right hpos)
  have hmin : 19 ≤ fmt.binlogSize := hfmt.1
  obtain ⟨w', hrest, hchain⟩ := writeAll_chained hsound (by omega) hacc fun c hc =>
    hread c (List.mem_cons_of_mem _ hc)
  obtain ⟨events, w₁, hrun, hfile⟩ := binlogOf_eq batch_size sync flushCycle (fmt :: cs) time
  have hevents : events = fmt.bytes :: (kept cs).map (·.bytes) := by
    simp only [writeAll, hcall, hrest, hign, Option.bind_eq_bind, Option.bind_some,
      Option.pure_def, Option.some.injEq, Prod.mk.injEq] at hrun
    simpa using hrun.1.symm
  have hlen : fmt.bytes.length = fmt.binlogSize := length_bytes
  have hnotype : ∀ e ∈ (kept cs).map (·.bytes),
      typeOf e ≠ ROTATE_EVENT ∧ typeOf e ≠ STOP_EVENT := by
    intro e he
    obtain ⟨c, hc, rfl⟩ := List.mem_map.mp he
    rw [typeOf_bytes (hread c (List.mem_cons_of_mem _ hc)).1]
    exact htype c (List.mem_of_mem_filter hc)
  have hall : Chained 4 (fmt.bytes :: (kept cs).map (·.bytes)) := by
    refine ⟨hplaced, ?_⟩
    rw [hlen, ← hoff]
    exact hchain
  obtain ⟨fake, his, hreplay⟩ := ReadBinlogFile.replays_new crc crc32 hpath hall
    (by rw [typeOf_bytes hfmt.1, hformat]) hnotype
  exact ⟨_, fake, hfile, his, by rw [hevents]; exact hreplay⟩

/-- Whatever the file that begins with the magic number: if the reader returns the events of a run,
their lengths are readable and the format event has a log position. -/
theorem readable_of_replays {filePath : List UInt8} {crc : UInt8} {crc32 : List UInt8 → Nat}
    {fmt : WriteCall} (cs : List WriteCall) {events : List (List UInt8)} {fake : List UInt8}
    (h : (ReadBinlogFile.new filePath (headMagicNumber ++ events.flatten) crc).Replays crc32
      (fake :: fmt.bytes :: (kept cs).map (·.bytes))) :
    fmt.binlogOffset ≠ 0 ∧ ∀ c ∈ fmt :: kept cs, Readable c.binlogSize := by
  obtain ⟨hreading, hstatus, -⟩ := ReadBinlogFile.new_reading filePath crc events
  obtain ⟨hplaced, hrest⟩ := ReadBinlogFile.replays_new_inv hreading.offset hstatus h
  have hlen (c : WriteCall) : c.bytes.length = c.binlogSize := length_bytes
  have hread : Readable fmt.binlogSize := hlen fmt ▸ hplaced.readable
  obtain ⟨hmin, hmax⟩ := hread
  simp only [LOG_EVENT_MINIMAL_HEADER_LEN] at hmin
  refine ⟨?_, ?_⟩
  · have hpos := hplaced.pos
    rw [hlen, korr_bytes (by simp only [LOG_POS_OFFSET]; omega)] at hpos
    unfold WriteCall.binlogOffset
    omega
  · intro c hc
    obtain rfl | hc := List.mem_cons.mp hc
    · exact ⟨hmin, hmax⟩
    · exact hlen c ▸ hrest c.bytes (List.mem_map_of_mem hc)

/-- What the writer accepts into a fresh file, first a format event and then any events but rotate
and stop, the reader returns behind a fake rotate, byte for byte and up to the end of the file, if
and only if the log position of the format event is not 0 and every event that is written has a
length the reader can read. -/
theorem replays_iff {filePath : List UInt8} (hpath : filePath ≠ []) (crc : UInt8)
    (crc32 : List UInt8 → Nat) (batch_size : Nat) (sync : Bool) (flushCycle time : Nat)
    (fmt : WriteCall) (cs : List WriteCall) (hformat : fmt.eventType = FORMAT_DESCRIPTION_EVENT)
    (htype : ∀ c ∈ cs, c.eventType ≠ ROTATE_EVENT ∧ c.eventType ≠ STOP_EVENT)
    (hacc : (onFresh batch_size sync flushCycle).AcceptsAll (fmt :: cs)) :
    (∃ file fake, binlogOf batch_size sync flushCycle (fmt :: cs) time = some file ∧
      ReadBinlogFile.IsFakeRotate filePath fake ∧
      (ReadBinlogFile.new filePath file crc).Replays crc32
        (fake :: fmt.bytes :: (kept cs).map (·.bytes))) ↔
      fmt.binlogOffset ≠ 0 ∧ ∀ c ∈ fmt :: kept cs, Readable c.binlogSize := by
  constructor
  · rintro ⟨file, fake, hfile, -, hreplay⟩
    obtain ⟨events, -, -, hfile'⟩ := binlogOf_eq batch_size sync flushCycle (fmt :: cs) time
    rw [hfile', Option.some.injEq] at hfile
    subst hfile
    exact readable_of_replays cs hreplay
  · rintro ⟨hpos, hread⟩
    exact replays_of_accepted hpath hformat htype hacc hpos hread

/-- A format event of 119 bytes for binlog version 4 and headers of 19 bytes, without checksums,
whose log position is `pos`. -/
def formatCall (pos : UInt8) : WriteCall where
  binlogEvent := fun i =>
    if i = 4 then FORMAT_DESCRIPTION_EVENT else if i = 9 then 119 else if i = 13 then pos
    else if i = 19 then 4 else if i = 75 then 19 else 0
  size := 119
  now := 0
  flushTime := 0

/-- An event of some type and size whose log position is `pos`. -/
def eventCall (type size pos : UInt8) : WriteCall where
  binlogEvent := fun i => if i = 4 then type else if i = 9 then size else if i = 13 then pos else 0
  size := size.toNat
  now := 0
  flushTime := 0

/-- A buffer of 64 bytes, and behind a format event with its log position: an event, the format
event again, which is not written, and another event. -/
theorem replays_iff_later :
    ∃ file fake, binlogOf 64 false 1
        [formatCall 123, eventCall 2 40 163, formatCall 123, eventCall 16 31 194] 0 = some file ∧
      ReadBinlogFile.IsFakeRotate [98] fake ∧
      (ReadBinlogFile.new [98] file 0).Replays (fun _ => 0)
        [fake, (formatCall 123).bytes, (eventCall 2 40 163).bytes, (eventCall 16 31 194).bytes] := by
  have haccepted : (onFresh 64 false 1).AcceptsAll
      [formatCall 123, eventCall 2 40 163, formatCall 123, eventCall 16 31 194] :=
    ⟨_, _, rfl, _, _, rfl, _, _, rfl, _, _, rfl, trivial⟩
  refine (replays_iff (List.cons_ne_nil 98 []) 0 (fun _ => 0) 64 false 1 0 (formatCall 123)
    [eventCall 2 40 163, formatCall 123, eventCall 16 31 194] rfl ?_ haccepted).mpr ⟨?_, ?_⟩
  · decide
  · decide
  · decide

/-- The writer accepts a format event whose log position is 0, and the reader does not return it. -/
theorem not_replays_zero :
    (onFresh 0 false 1).AcceptsAll [formatCall 0] ∧
      ¬∃ file fake, binlogOf 0 false 1 [formatCall 0] 0 = some file ∧
        ReadBinlogFile.IsFakeRotate [98] fake ∧
        (ReadBinlogFile.new [98] file 0).Replays (fun _ => 0) [fake, (formatCall 0).bytes] := by
  refine ⟨⟨true, _, rfl, trivial⟩, ?_⟩
  rintro ⟨file, fake, hfile, -, hreplay⟩
  obtain ⟨events, -, -, hfile'⟩ := binlogOf_eq 0 false 1 [formatCall 0] 0
  rw [hfile', Option.some.injEq] at hfile
  subst hfile
  exact (readable_of_replays [] hreplay).1 (by decide)

end WriteBinlogFile

end DBStream.Native.DATA_SOURCE
