import DBStream.Spec.BinlogReplay

/-!
# Positioning a binlog reader

`setFile` leaves the offset of the last event as it was in the file before, and `_setPosition` does
not seek when the new offset is equal to it.  At an offset behind the format event this does no
harm, for the reader goes to offset 4 and back before it returns its first event of the file.  At
offset 4 the handle stays at the magic number.
-/

namespace DBStream.Native.DATA_SOURCE

/-! ## Well-formed files -/

/-- An event that begins at `off`, with a whole header and its own length and end in it.  The format
event at the beginning of the data may leave the end out. -/
structure Sits (off : Nat) (e : List UInt8) : Prop where
  header : LOG_EVENT_HEADER_LEN ≤ e.length
  len : korr 4 e EVENT_LEN_OFFSET = e.length
  pos : korr 4 e LOG_POS_OFFSET = (off + e.length) % 2 ^ 32 ∨ off = 4 ∧ korr 4 e LOG_POS_OFFSET = 0

/-- Events one behind the other from `off` on. -/
def Laid : Nat → List (List UInt8) → Prop
  | _, [] => True
  | off, e :: es => Sits off e ∧ Laid (off + e.length) es

/-- The checksum algorithm that a format event names. -/
def crcOf (fmt : List UInt8) : UInt8 :=
  fmt.getD (fmt.length - BINLOG_CHECKSUM_LEN - BINLOG_CHECKSUM_ALG_DESC_LEN) 0

/-- A rotate event is the last one, and has room for its fields and the checksum. -/
def RotatesLast (crc : UInt8) : List (List UInt8) → Prop
  | [] => True
  | e :: es =>
    (typeOf e = ROTATE_EVENT → es = [] ∧
      LOG_EVENT_HEADER_LEN + ROTATE_HEADER_LEN + (if crc ≠ 0 then BINLOG_CHECKSUM_LEN else 0) ≤
        e.length) ∧
    RotatesLast crc es

/-- A binlog file with the format event `fmt` and the events `es` behind it. -/
structure WellFormed (file : List UInt8) (fmt : List UInt8) (es : List (List UInt8)) : Prop where
  size : file.length < 2 ^ 63
  bytes : file = headMagicNumber ++ (fmt :: es).flatten
  laid : Laid 4 (fmt :: es)
  format : typeOf fmt = FORMAT_DESCRIPTION_EVENT
  rotate : RotatesLast (crcOf fmt) es

/-- `off` is 4, the beginning of an event or the end of the last one. -/
def IsBoundary (off : Nat) (events : List (List UInt8)) : Prop :=
  ∃ before after, events = before ++ after ∧ off = 4 + before.flatten.length

/-- Events with the offsets they begin at. -/
def withStarts : Nat → List (List UInt8) → List (Nat × List UInt8)
  | _, [] => []
  | off, e :: es => (off, e) :: withStarts (off + e.length) es

/-- Of the events behind the format event those that begin at `off` or later. -/
def eventsFrom (off : Nat) (fmt : List UInt8) (es : List (List UInt8)) : List (List UInt8) :=
  ((withStarts (4 + fmt.length) es).filter fun p => off ≤ p.1).map Prod.snd

theorem Laid.header {off : Nat} {es : List (List UInt8)} (h : Laid off es) :
    ∀ e ∈ es, LOG_EVENT_HEADER_LEN ≤ e.length := by
  induction es generalizing off with
  | nil => simp
  | cons e es ih =>
    obtain ⟨hsits, hlaid⟩ := h
    intro x hx
    obtain rfl | hx := List.mem_cons.mp hx
    · exact hsits.header
    · exact ih hlaid x hx

variable {before after : List (List UInt8)}

theorem Laid.append {off : Nat} (h : Laid off (before ++ after)) :
    Laid (off + before.flatten.length) after := by
  induction before generalizing off with
  | nil => simpa using h
  | cons e before ih => simpa [Nat.add_assoc] using ih h.2

theorem RotatesLast.append {crc : UInt8}
    (h : RotatesLast crc (before ++ after)) : RotatesLast crc after := by
  induction before with
  | nil => exact h
  | cons e before ih => exact ih h.2

theorem filter_withStarts {off start : Nat} (es : List (List UInt8)) (h : off ≤ start) :
    ((withStarts start es).filter fun p => off ≤ p.1).map Prod.snd = es := by
  induction es generalizing start with
  | nil => rfl
  | cons e es ih => simp [withStarts, h, ih (Nat.le_trans h (Nat.le_add_right _ e.length))]

private theorem filter_withStarts_append (start : Nat) (before after : List (List UInt8))
    (h : ∀ e ∈ before, e ≠ []) :
    ((withStarts start (before ++ after)).filter
      fun p => start + before.flatten.length ≤ p.1).map Prod.snd = after := by
  induction before generalizing start with
  | nil => exact filter_withStarts after (by simp)
  | cons e before ih =>
    have he : 0 < e.length := List.length_pos_of_ne_nil (h e List.mem_cons_self)
    have hno : ¬start + (e :: before).flatten.length ≤ start := by
      simp only [List.flatten_cons, List.length_append]
      omega
    have hrest := ih (start + e.length) fun x hx => h x (List.mem_cons_of_mem _ hx)
    simp only [List.cons_append, withStarts, List.filter_cons, hno, decide_false]
    simpa [Nat.add_assoc] using hrest

theorem exists_split {off : Nat} {fmt : List UInt8} {es : List (List UInt8)}
    (hlaid : Laid 4 (fmt :: es)) (h : IsBoundary off (fmt :: es)) :
    ∃ before, es = before ++ eventsFrom off fmt es ∧
      (off = 4 ∧ before = [] ∨ off = 4 + fmt.length + before.flatten.length) := by
  obtain ⟨front, after, hsplit, rfl⟩ := h
  cases front with
  | nil =>
    refine ⟨[], ?_, .inl ⟨by simp, rfl⟩⟩
    exact (filter_withStarts es (by simp)).symm
  | cons e before =>
    obtain ⟨rfl, rfl⟩ : fmt = e ∧ es = before ++ after := by simpa using hsplit
    have hne : ∀ x ∈ before, x ≠ [] := by
      intro x hx
      have := hlaid.header x (by simp [hx])
      rintro rfl
      simp [LOG_EVENT_HEADER_LEN] at this
    refine ⟨before, ?_, .inr (by simp [Nat.add_assoc])⟩
    have := filter_withStarts_append (4 + fmt.length) before after hne
    simpa [eventsFrom, Nat.add_assoc] using this.symm

theorem WellFormed.length_eq {file fmt : List UInt8} {es before after : List (List UInt8)}
    (h : WellFormed file fmt es) (hes : es = before ++ after) :
    file.length = 4 + fmt.length + before.flatten.length + after.flatten.length := by
  have hmagic : headMagicNumber.length = 4 := rfl
  rw [h.bytes, hes]
  simp [hmagic]
  omega

theorem WellFormed.drop_eq {file fmt : List UInt8} {es before after : List (List UInt8)}
    (h : WellFormed file fmt es) (hes : es = before ++ after) :
    file.drop (4 + fmt.length + before.flatten.length) = after.flatten := by
  have hmagic : headMagicNumber.length = 4 := rfl
  have hfront : (headMagicNumber ++ fmt ++ before.flatten).length =
      4 + fmt.length + before.flatten.length := by simp [hmagic, Nat.add_assoc]
  rw [h.bytes, hes, ← hfront]
  simp

theorem Sits.placed {off : Nat} {e : List UInt8} (h : Sits off e) (hread : Readable e.length)
    (hpos : off = 4 → korr 4 e LOG_POS_OFFSET ≠ 0) : Placed off e := by
  refine ⟨hread, h.len, ?_⟩
  obtain hend | ⟨hoff, hzero⟩ := h.pos
  · exact hend
  · exact absurd hzero (hpos hoff)

theorem Placed.logPos_ne_zero {e : List UInt8} (h : Placed 4 e) : korr 4 e LOG_POS_OFFSET ≠ 0 := by
  obtain ⟨hmin, hmax⟩ := h.readable
  rw [h.pos, Nat.mod_eq_of_lt (by omega)]
  omega

namespace ReadBinlogFile

variable {r r' : ReadBinlogFile} {crc32 : List UInt8 → Nat} {off : Nat} {e : List UInt8}
  {es : List (List UInt8)} {filePath fmt file : List UInt8} {crc : UInt8}

/-! ## The fake rotate event -/

/-- A rotate event made up by the reader, which names the file and an offset and ends behind the
name or its checksum. -/
structure IsFakeRotateTo (filePath : List UInt8) (off : Nat) (e : List UInt8) : Prop where
  type : typeOf e = ROTATE_EVENT
  pos : korr 4 e LOG_POS_OFFSET = 0
  flags : korr 2 e FLAGS_OFFSET = LOG_EVENT_ARTIFICIAL_F
  offset : korr 8 e LOG_EVENT_HEADER_LEN = off
  name : e.slice (LOG_EVENT_HEADER_LEN + ROTATE_HEADER_LEN) (fileNameOf filePath).length =
    fileNameOf filePath
  length : e.length = LOG_EVENT_HEADER_LEN + ROTATE_HEADER_LEN + (fileNameOf filePath).length ∨
    e.length = LOG_EVENT_HEADER_LEN + ROTATE_HEADER_LEN + (fileNameOf filePath).length +
      BINLOG_CHECKSUM_LEN

private theorem length_fakeRotateBytes : r.fakeRotateBytes.length =
    LOG_EVENT_HEADER_LEN + ROTATE_HEADER_LEN + (fileNameOf r.m_filePath).length := by
  simp only [fakeRotateBytes, List.length_append, LE.length_bytes, List.length_singleton,
    LOG_EVENT_HEADER_LEN, ROTATE_HEADER_LEN]

theorem fakeRotateEvent_to (crc32 : List UInt8 → Nat) (hpath : r.m_filePath ≠ [])
    (hoff : r.m_logEventOffset < 2 ^ 64) :
    ∃ e, r.fakeRotateEvent crc32 = some e ∧ IsFakeRotateTo r.m_filePath r.m_logEventOffset e := by
  have hfields (tail : List UInt8) (htail : tail.length = 0 ∨ tail.length = BINLOG_CHECKSUM_LEN) :
      IsFakeRotateTo r.m_filePath r.m_logEventOffset (r.fakeRotateBytes ++ tail) := by
    constructor
    · simp [typeOf, fakeRotateBytes, LE.bytes, EVENT_TYPE_OFFSET]
    · simp [korr, fakeRotateBytes, LE.bytes, LOG_POS_OFFSET, List.slice]
    · simp [korr, fakeRotateBytes, LE.bytes, FLAGS_OFFSET, List.slice, LOG_EVENT_ARTIFICIAL_F]
    · unfold fakeRotateBytes korr
      simp only [List.append_assoc]
      -- the header is 19 bytes long, and the offset is the word behind it
      simp only [← List.append_assoc _ _ (LE.bytes 8 r.m_logEventOffset ++ _)]
      rw [List.slice_append_mid _ (by simp [LOG_EVENT_HEADER_LEN]) (LE.length_bytes 8 _)]
      exact LE.nat_bytes_of_lt hoff
    · simp [fakeRotateBytes, LE.bytes, LOG_EVENT_HEADER_LEN, ROTATE_HEADER_LEN, List.slice]
    · rw [List.length_append, length_fakeRotateBytes]
      omega
  unfold fakeRotateEvent
  rw [if_neg hpath]
  split_ifs
  · exact ⟨_, rfl, hfields _ (.inr (LE.length_bytes 4 _))⟩
  · exact ⟨_, rfl, by simpa using hfields [] (.inl rfl)⟩

/-! ## What calls leave alone -/

@[simp] theorem reserve_crc (n : Nat) : (r.reserve n).m_crc = r.m_crc := by
  unfold reserve
  split_ifs <;> rfl

@[simp] theorem reserve_filePath (n : Nat) : (r.reserve n).m_filePath = r.m_filePath := by
  unfold reserve
  split_ifs <;> rfl

/-- The same file under the same path, with the same checksum algorithm. -/
structure SameFile (r r' : ReadBinlogFile) : Prop where
  filePath : r'.m_filePath = r.m_filePath
  bytes : r'.m_fileFD.bytes = r.m_fileFD.bytes
  crc : r'.m_crc = r.m_crc

private theorem checkPosition_sameFile (n : Nat) : r.SameFile (r.checkPosition n).2 := by
  unfold checkPosition
  split_ifs
  · exact ⟨rfl, rfl, rfl⟩
  · exact ⟨rfl, rfl, rfl⟩

theorem readBody_sameFile (n : Nat) : r.SameFile (r.readBody n).2 := by
  have hfd : (r.m_fileFD.readFile (n - LOG_EVENT_MINIMAL_HEADER_LEN)).2.bytes =
      r.m_fileFD.bytes := rfl
  unfold readBody
  generalize r.m_fileFD.readFile (n - LOG_EVENT_MINIMAL_HEADER_LEN) = x at hfd
  obtain ⟨body, fd⟩ := x
  dsimp only at hfd ⊢
  by_cases hint : body.length ≥ 2 ^ 31
  · rw [if_pos hint]
    exact ⟨rfl, hfd, rfl⟩
  by_cases hlen : n - LOG_EVENT_MINIMAL_HEADER_LEN ≠ body.length
  · rw [if_neg hint, if_pos hlen]
    exact ⟨rfl, hfd, rfl⟩
  · rw [if_neg hint, if_neg hlen]
    obtain ⟨hpath, hbytes, hcrc⟩ := checkPosition_sameFile n (r := { r with
      m_fileFD := fd, m_readBuf := r.m_readBuf ++ body })
    exact ⟨hpath, hbytes.trans hfd, hcrc⟩

theorem readBinlog_sameFile : r.SameFile r.readBinlog.2 := by
  have hfd : (r.m_fileFD.readFile LOG_EVENT_MINIMAL_HEADER_LEN).2.bytes = r.m_fileFD.bytes := rfl
  unfold readBinlog
  generalize r.m_fileFD.readFile LOG_EVENT_MINIMAL_HEADER_LEN = x at hfd
  obtain ⟨head, fd⟩ := x
  dsimp only at hfd ⊢
  split_ifs
  · exact ⟨rfl, rfl, rfl⟩
  · exact ⟨rfl, hfd, rfl⟩
  · exact ⟨rfl, hfd, rfl⟩
  · exact ⟨rfl, hfd, rfl⟩
  · obtain ⟨hpath, hbytes, hcrc⟩ := readBody_sameFile (korr 4 head EVENT_LEN_OFFSET)
    exact ⟨hpath.trans (by simp), hbytes.trans (by simpa using hfd), hcrc.trans (by simp)⟩

/-! ## Seeking -/

/-- The reader at another offset of its file. -/
def movedTo (r : ReadBinlogFile) (off : Nat) : ReadBinlogFile :=
  { r with
    m_fileSize := r.m_fileFD.bytes.length
    m_fileFD := { r.m_fileFD with pos := off }
    m_logEventOffset := off }

theorem _setPosition_same (herr : r.m_err = 0) (hoff : max off 4 = r.m_logEventOffset) :
    r._setPosition off = (0, r) := by
  cases r
  simp_all [_setPosition]

theorem _setPosition_move (herr : r.m_err = 0) (hoff : max off 4 ≠ r.m_logEventOffset)
    (hsize : max off 4 ≤ r.m_fileFD.bytes.length) :
    r._setPosition off = (0, r.movedTo (max off 4)) := by
  cases r
  simp_all [_setPosition, movedTo, FileHandle.seekEnd, FileHandle.seekSet]

theorem _setPosition_far (off : Nat) (herr : r.m_err = 0) (hoff : max off 4 ≠ r.m_logEventOffset)
    (hsize : r.m_fileFD.bytes.length < max off 4) : (r._setPosition off).1 = -2 := by
  cases r
  simp_all [_setPosition, FileHandle.seekEnd]

theorem _setPosition_readBuf (off : Nat) : (r._setPosition off).2.m_readBuf = r.m_readBuf := by
  unfold _setPosition
  by_cases herr : r.m_err ≠ BINLOG_ERR_EOF ∧ r.m_err ≠ 0
  · rw [if_pos herr]
  · simp only [if_neg herr]
    split_ifs <;> rfl

theorem _setPosition_reading (off : Nat) (herr : r.m_err = 0) (hoff : 4 ≤ off)
    (hsize : off ≤ r.m_fileFD.bytes.length)
    (hpos : off = r.m_logEventOffset → r.m_fileFD.pos = off)
    (hrest : r.m_fileFD.bytes.drop off = es.flatten) :
    (r._setPosition off).2.Reading off es ∧ r.SameFile (r._setPosition off).2 := by
  by_cases hsame : off = r.m_logEventOffset
  · rw [_setPosition_same herr (by simpa [hoff] using hsame)]
    exact ⟨⟨herr, hpos hsame, hsame.symm, hrest⟩, rfl, rfl, rfl⟩
  · rw [_setPosition_move herr (by simpa [hoff] using hsame) (by simpa [hoff] using hsize),
      Nat.max_eq_left hoff]
    exact ⟨⟨herr, rfl, rfl, hrest⟩, rfl, rfl, rfl⟩

theorem SameFile.trans {r'' : ReadBinlogFile} (h : r.SameFile r') (h' : r'.SameFile r'') :
    r.SameFile r'' :=
  ⟨h'.filePath.trans h.filePath, h'.bytes.trans h.bytes, h'.crc.trans h.crc⟩

/-! ## The events behind the format event -/

/-- A stop event at the end of the file is returned only if the next file name can be counted up. -/
def StopsWell (filePath : List UInt8) (es : List (List UInt8)) : Prop :=
  ∀ e, es.getLast? = some e → typeOf e = STOP_EVENT →
    (nextName ((fileNameOf filePath).take 255).reverse).isSome

theorem stopsWell_cons (h : typeOf e = STOP_EVENT → es ≠ []) :
    StopsWell filePath (e :: es) ↔ StopsWell filePath es := by
  cases es with
  | nil =>
    have hno : typeOf e ≠ STOP_EVENT := fun hstop => h hstop rfl
    simp [StopsWell, hno]
  | cons x es => simp [StopsWell, List.getLast?_cons_cons]

theorem replays_nil_of_eof (h : r.m_err = BINLOG_ERR_EOF) : r.Replays crc32 [] :=
  ⟨r, by simp [readBinlogEvent, h, BINLOG_ERR_EOF], h⟩

theorem deliver_rotate (hlen : korr 4 r.m_readBuf EVENT_LEN_OFFSET = r.m_readBuf.length)
    (htype : typeOf r.m_readBuf = ROTATE_EVENT)
    (hroom : LOG_EVENT_HEADER_LEN + ROTATE_HEADER_LEN +
      (if r.m_crc ≠ 0 then BINLOG_CHECKSUM_LEN else 0) ≤ r.m_readBuf.length) :
    ∃ r', r.deliver = some (0, some r.m_readBuf, r') ∧ r'.m_err = BINLOG_ERR_EOF := by
  have htype' : r.eventType = ROTATE_EVENT := htype
  unfold deliver endAtRotate
  simp only [htype', if_true, hlen, List.take_length]
  rw [if_neg (Nat.not_lt.mpr hroom)]
  exact ⟨_, rfl, rfl⟩

theorem deliver_stop (hlen : korr 4 r.m_readBuf EVENT_LEN_OFFSET = r.m_readBuf.length)
    (htype : typeOf r.m_readBuf = STOP_EVENT) :
    r.deliver = some (r.endAtStop.1, if r.endAtStop.1 = 0 then some r.m_readBuf else none,
      r.endAtStop.2) := by
  have htype' : r.eventType = STOP_EVENT := htype
  have hne : ¬(STOP_EVENT = ROTATE_EVENT) := by decide
  simp [deliver, htype', hne, hlen]

/-- A stop event that is not at the end of the file changes nothing but the handle, which stands
where it stood before. -/
theorem deliver_stop_inside (h : r.Reading off es) (hes : es.flatten ≠ [])
    (hlen : korr 4 r.m_readBuf EVENT_LEN_OFFSET = r.m_readBuf.length)
    (htype : typeOf r.m_readBuf = STOP_EVENT) : r.deliver = some (0, some r.m_readBuf, r) := by
  have hsize : r.m_logEventOffset ≠ r.m_fileFD.seekEnd.pos := by
    intro hsize
    have hrest := h.rest
    rw [← h.offset, hsize, FileHandle.seekEnd, List.drop_length] at hrest
    exact hes hrest.symm
  have hend : r.endAtStop = (0, r) := by
    have hfd : r.m_fileFD.seekSet r.m_logEventOffset = r.m_fileFD := by
      rw [FileHandle.seekSet, h.offset, ← h.pos]
    unfold endAtStop
    rw [if_neg hsize, hfd]
  rw [deliver_stop hlen htype, hend, if_pos rfl]

theorem deliver_stop_last (h : r.Reading off []) (hoff : off ≤ r.m_fileFD.bytes.length)
    (hlen : korr 4 r.m_readBuf EVENT_LEN_OFFSET = r.m_readBuf.length)
    (htype : typeOf r.m_readBuf = STOP_EVENT) :
    (∃ r', r.deliver = some (0, some r.m_readBuf, r') ∧ r'.Replays crc32 []) ↔
      (nextName ((fileNameOf r.m_filePath).take 255).reverse).isSome := by
  have hsize : r.m_logEventOffset = r.m_fileFD.seekEnd.pos := by
    have hrest := h.rest
    rw [List.flatten_nil, List.drop_eq_nil_iff] at hrest
    rw [h.offset]
    exact Nat.le_antisymm hoff hrest
  rw [deliver_stop hlen htype]
  unfold endAtStop
  rw [if_pos hsize]
  cases hname : nextName ((fileNameOf r.m_filePath).take 255).reverse with
  | none => simp
  | some name =>
    simp only [if_true, Option.isSome_some, iff_true]
    exact ⟨_, rfl, replays_nil_of_eof rfl⟩

/-- Behind the format event the reader returns what the file holds from there on, if and only if
every event is readable and a stop event at the end is no obstacle. -/
theorem replays_iff_readable (crc32 : List UInt8 → Nat) (hdata : r.InData) (h : r.Reading off es)
    (hoff : 4 < off ∧ off ≤ r.m_fileFD.bytes.length) (hlaid : Laid off es)
    (hrotate : RotatesLast r.m_crc es) :
    r.Replays crc32 es ↔ (∀ e ∈ es, Readable e.length) ∧ StopsWell r.m_filePath es := by
  induction es generalizing r off with
  | nil =>
    obtain ⟨r', hread, herr⟩ := readBinlog_eof h
    simp only [List.not_mem_nil, false_implies, implies_true, true_and, StopsWell,
      List.getLast?_nil, reduceCtorEq, iff_true]
    exact ⟨r', by simp [readBinlogEvent_data hdata h.err, hread], herr⟩
  | cons e es ih =>
    by_cases hreadable : Readable e.length
    case neg =>
      -- an event that is too long is never returned
      have hno : ¬∀ x ∈ e :: es, Readable x.length := fun hall =>
        hreadable (hall e List.mem_cons_self)
      exact iff_of_false (fun hreplay => hno (replays_inv hdata hreplay)) fun hand => hno hand.1
    case pos =>
      obtain ⟨hsits, hlaid⟩ := hlaid
      obtain ⟨hlast, hrotate⟩ := hrotate
      have hplaced := hsits.placed hreadable fun hfour => absurd hfour (by omega)
      obtain ⟨r₁, hread, rfl, hrest, hstatus⟩ := readBinlog_spec h hplaced
      have hsame : r.SameFile r₁ := by simpa [hread] using readBinlog_sameFile (r := r)
      have hdata₁ : r₁.InData := by rwa [InData, hstatus]
      have hcall : r.readBinlogEvent crc32 = r₁.deliver := by
        simp [readBinlogEvent_data hdata h.err, hread]
      have hlen := hplaced.len
      have hend : off + r₁.m_readBuf.length ≤ r₁.m_fileFD.bytes.length := by
        have hdrop := congrArg List.length h.rest
        simp only [List.length_drop, List.flatten_cons, List.length_append] at hdrop
        rw [hsame.bytes]
        omega
      have hmem : (∀ x ∈ r₁.m_readBuf :: es, Readable x.length) ↔ ∀ x ∈ es, Readable x.length := by
        simp [hreadable]
      rw [hmem, Replays, hcall]
      -- an event that ends nothing leaves the rest to the induction hypothesis
      have hgo (hne : typeOf r₁.m_readBuf = STOP_EVENT → es ≠ []) :
          (∃ r', some ((0 : Int), some r₁.m_readBuf, r₁) = some (0, some r₁.m_readBuf, r') ∧
            r'.Replays crc32 es) ↔
          (∀ x ∈ es, Readable x.length) ∧ StopsWell r.m_filePath (r₁.m_readBuf :: es) := by
        rw [stopsWell_cons hne, ← hsame.filePath,
          ← ih hdata₁ hrest ⟨by omega, hend⟩ hlaid (by rwa [hsame.crc])]
        simp
      by_cases hrot : typeOf r₁.m_readBuf = ROTATE_EVENT
      · obtain ⟨rfl, hroom⟩ := hlast hrot
        rw [← hsame.crc] at hroom
        obtain ⟨r', hdeliver, herr⟩ := deliver_rotate hlen hrot hroom
        refine iff_of_true ⟨r', hdeliver, replays_nil_of_eof herr⟩ ⟨by simp, ?_⟩
        intro x hx hstop
        simp only [List.getLast?_singleton, Option.some.injEq] at hx
        rw [← hx, hrot] at hstop
        exact absurd hstop (by decide)
      by_cases hstop : typeOf r₁.m_readBuf = STOP_EVENT
      · cases es with
        | nil =>
          rw [deliver_stop_last hrest hend hlen hstop, hsame.filePath]
          simp [StopsWell, hstop]
        | cons x es =>
          have hne : (x :: es).flatten ≠ [] := by
            have := hlaid.header x List.mem_cons_self
            intro hnil
            simp_all [LOG_EVENT_HEADER_LEN]
          rw [deliver_stop_inside hrest hne hlen hstop]
          exact hgo fun _ => List.cons_ne_nil x es
      · rw [deliver_spec hlen hrot hstop]
        exact hgo fun h => absurd h hstop

/-! ## The format event -/

theorem readFormatEvent_inv (h : r.readFormatEvent = (0, r')) :
    ∃ r₁, (r._setPosition 4).2.readBinlog = (0, r₁) ∧ r₁.eventType = FORMAT_DESCRIPTION_EVENT ∧
      r'.m_readBuf = r₁.m_readBuf := by
  unfold readFormatEvent at h
  dsimp only at h
  generalize (r._setPosition 4).2.readBinlog = x at h ⊢
  obtain ⟨ret, r₁⟩ := x
  dsimp only at h
  by_cases hfail : ret ≠ 0 ∨ r₁.eventType ≠ FORMAT_DESCRIPTION_EVENT
  · rw [if_pos hfail] at h
    simp at h
  rw [if_neg hfail] at h
  rw [not_or, not_not, not_not] at hfail
  obtain ⟨rfl, htype⟩ := hfail
  refine ⟨r₁, rfl, htype, ?_⟩
  split_ifs at h
  · simp at h
  · simp only [Prod.mk.injEq, true_and] at h
    rw [← h, _setPosition_readBuf]
  · simp only [Prod.mk.injEq, true_and] at h
    rw [← h]

theorem readFormat_returns (hstatus : r.m_status = .BINLOG_READ_FORMAT)
    (h : r.readBinlogEvent crc32 = some (0, some e, r')) :
    (∃ r₁, (r._setPosition 4).2.readBinlog = (0, r₁) ∧
      r₁.eventType = FORMAT_DESCRIPTION_EVENT ∧ e = r₁.m_readBuf) ∧ r'.InData := by
  by_cases herr : r.m_err = 0
  case neg => simp [readBinlogEvent, herr] at h
  rw [readBinlogEvent_format herr hstatus] at h
  by_cases hret : r.readFormatEvent.1 = 0
  case neg => simp [hret] at h
  rw [if_neg (not_not.mpr hret)] at h
  obtain ⟨r₁, hread, htype, hbuf⟩ := readFormatEvent_inv (Prod.ext hret rfl)
  obtain ⟨hplaced, -⟩ := readBinlog_inv hread
  obtain ⟨rfl, hdata⟩ := deliver_inv (by simpa [hbuf] using hplaced.len) (.inl rfl) h
  exact ⟨⟨r₁, hread, htype, hbuf⟩, hdata⟩

theorem readBinlog_head (h : r.readBinlog = (0, r')) :
    ∃ body, r'.m_readBuf =
      r.m_fileFD.bytes.slice r.m_fileFD.pos LOG_EVENT_MINIMAL_HEADER_LEN ++ body := by
  have hhead : (r.m_fileFD.readFile LOG_EVENT_MINIMAL_HEADER_LEN).1 =
      r.m_fileFD.bytes.slice r.m_fileFD.pos LOG_EVENT_MINIMAL_HEADER_LEN := rfl
  unfold readBinlog at h
  simp only at h hhead
  split_ifs at h
  · simp at h
  · simp at h
  · simp at h
  · simp at h
  obtain ⟨body, hbuf, -⟩ := readBody_inv h
  exact ⟨body, by simpa [hhead] using hbuf⟩

/-- At the magic number there is no format event of this file: it would have to begin with the
magic number itself. -/
theorem not_format_at_magic {r₁ : ReadBinlogFile} (hpos : r.m_fileFD.pos = 0)
    (hbytes : r.m_fileFD.bytes = headMagicNumber ++ (fmt :: es).flatten) (hfmt : fmt ≠ [])
    (hread : r.readBinlog = (0, r₁)) (htype : r₁.eventType = FORMAT_DESCRIPTION_EVENT) :
    fmt ≠ r₁.m_readBuf := by
  obtain ⟨body, hbuf⟩ := readBinlog_head hread
  obtain ⟨b, tail, rfl⟩ := List.exists_cons_of_ne_nil hfmt
  -- the type is the fifth byte of the file, which is the first of the format event
  have hmagic : headMagicNumber = [0xfe, 0x62, 0x69, 0x6e] := by decide
  rw [hpos, hbytes, hmagic] at hbuf
  simp only [List.slice, List.drop_zero, LOG_EVENT_MINIMAL_HEADER_LEN, List.flatten_cons,
    List.cons_append, List.nil_append, List.take_succ_cons] at hbuf
  rw [eventType, hbuf] at htype
  rw [hbuf]
  intro heq
  obtain ⟨rfl, -⟩ := List.cons.inj heq
  simp [EVENT_TYPE_OFFSET, FORMAT_DESCRIPTION_EVENT] at htype

/-! ## Positions -/

/-- A file and an offset in it have been set. -/
structure IsSet (r : ReadBinlogFile) (filePath file : List UInt8) (off : Nat) : Prop where
  err : r.m_err = 0
  path : r.m_filePath = filePath
  bytes : r.m_fileFD.bytes = file
  offset : r.m_logEventOffset = off

/-- A successful `setFile`.  The handle has been moved unless the offset is that of the last event,
whatever file that was in. -/
theorem setFile_spec (hoff : 4 ≤ off) (h : r.setFile filePath (.ok file) off = (0, r')) :
    r'.IsSet filePath file off ∧ r'.m_status = .BINLOG_READ_FAKE_ROTATE ∧
      r'.m_fileFD.pos = if off = r.m_logEventOffset then 0 else off := by
  simp only [setFile, setPosition, Nat.max_eq_left hoff] at h
  by_cases hsame : off = r.m_logEventOffset
  · rw [_setPosition_same rfl (by simpa [hoff] using hsame)] at h
    simp only [Int.lt_irrefl, if_false, Prod.mk.injEq, true_and] at h
    subst h
    exact ⟨⟨rfl, rfl, rfl, hsame.symm⟩, rfl, by rw [if_pos hsame]⟩
  · by_cases hsize : off ≤ file.length
    · rw [_setPosition_move rfl (by simpa [hoff] using hsame) (by simpa [hoff] using hsize)] at h
      simp only [Nat.max_eq_left hoff, Int.lt_irrefl, if_false, Prod.mk.injEq, true_and] at h
      subst h
      exact ⟨⟨rfl, rfl, rfl, rfl⟩, rfl, by rw [if_neg hsame]; rfl⟩
    · have hfar := _setPosition_far off (r := { r with
        m_filePath := filePath, m_fileFD := ⟨file, 0, file.length⟩, m_err := 0 }) rfl
        (by simpa [hoff] using hsame) (by simpa [hoff] using hsize)
      simp [hfar] at h

/-- The format event is read, and the reader stands at its offset again. -/
theorem readFormatEvent_spec (h : WellFormed file fmt es)
    (hes : es = before ++ after) (herr : r.m_err = 0) (hbytes : r.m_fileFD.bytes = file)
    (hoff : r.m_logEventOffset = 4 ∧ before = [] ∨
      r.m_logEventOffset = 4 + fmt.length + before.flatten.length)
    (hpos : r.m_logEventOffset = 4 → r.m_fileFD.pos = 4) (hplaced : Placed 4 fmt) :
    ∃ r', r.readFormatEvent = (0, r') ∧ r'.m_readBuf = fmt ∧ r'.m_crc = crcOf fmt ∧
      r'.m_filePath = r.m_filePath ∧ r'.m_fileFD.bytes = file ∧
      r'.Reading (4 + fmt.length + before.flatten.length) after := by
  have hmin : 19 ≤ fmt.length := hplaced.readable.1
  have hlength := h.length_eq hes
  have hmagic : headMagicNumber.length = 4 := rfl
  have hfour : file.drop 4 = (fmt :: es).flatten := by
    rw [h.bytes, ← hmagic, List.drop_left]
  obtain ⟨hreading, hsame⟩ := _setPosition_reading 4 herr (by omega)
    (by rw [hbytes]; omega) (fun heq => hpos heq.symm) (by rw [hbytes]; exact hfour)
  obtain ⟨r₁, hread, rfl, hrest, -⟩ := readBinlog_spec hreading hplaced
  have hsame₁ : r.SameFile r₁ := by
    have := hsame.trans readBinlog_sameFile
    rwa [hread] at this
  have htype : r₁.eventType = FORMAT_DESCRIPTION_EVENT := h.format
  have hlen := hplaced.len
  have hend : korr 4 r₁.m_readBuf LOG_POS_OFFSET = (r₁.m_readBuf.length + 4) % 2 ^ 32 := by
    rw [hplaced.pos, Nat.add_comm]
  -- the reader behind the format event
  let r₂ : ReadBinlogFile :=
    { r₁ with
      m_crc := crcOf r₁.m_readBuf
      m_serverId := korr 4 r₁.m_readBuf SERVER_ID_OFFSET }
  have hformat : r.readFormatEvent =
      if r.m_logEventOffset > 4 then (0, (r₂._setPosition r.m_logEventOffset).2) else (0, r₂) := by
    unfold readFormatEvent
    simp [hread, htype, hlen, hend, crcOf, r₂]
  have hbytes₂ : r₂.m_fileFD.bytes = file := hsame₁.bytes.trans hbytes
  obtain ⟨hoff, rfl⟩ | hoff := hoff
  · obtain rfl : es = after := hes
    rw [if_neg (by omega)] at hformat
    exact ⟨r₂, hformat, rfl, rfl, hsame₁.filePath, hbytes₂,
      ⟨hrest.err, hrest.pos, hrest.offset, hrest.rest⟩⟩
  · rw [if_pos (by omega), hoff] at hformat
    have hrest₂ : r₂.Reading (4 + r₁.m_readBuf.length) es :=
      ⟨hrest.err, hrest.pos, hrest.offset, hrest.rest⟩
    obtain ⟨hreading₂, hsame₂⟩ := _setPosition_reading
      (4 + r₁.m_readBuf.length + before.flatten.length) hrest₂.err (by omega)
      (by rw [hbytes₂]; omega) (fun heq => by rw [hrest₂.pos, heq, hrest₂.offset])
      (by rw [hbytes₂]; exact h.drop_eq hes)
    exact ⟨_, hformat, _setPosition_readBuf _, hsame₂.crc,
      hsame₂.filePath.trans hsame₁.filePath, hsame₂.bytes.trans hbytes₂, hreading₂⟩

theorem readFormat_spec (crc32 : List UInt8 → Nat)
    (h : WellFormed file fmt es)
    (hes : es = before ++ after) (herr : r.m_err = 0) (hbytes : r.m_fileFD.bytes = file)
    (hoff : r.m_logEventOffset = 4 ∧ before = [] ∨
      r.m_logEventOffset = 4 + fmt.length + before.flatten.length)
    (hpos : r.m_logEventOffset = 4 → r.m_fileFD.pos = 4)
    (hstatus : r.m_status = .BINLOG_READ_FORMAT) (hplaced : Placed 4 fmt) :
    ∃ r', r.readBinlogEvent crc32 = some (0, some fmt, r') ∧ r'.InData ∧ r'.m_crc = crcOf fmt ∧
      r'.m_filePath = r.m_filePath ∧ r'.m_fileFD.bytes = file ∧
      r'.Reading (4 + fmt.length + before.flatten.length) after := by
  obtain ⟨r₂, hformat, hbuf, hcrc, hpath, hbytes, hreading⟩ :=
    readFormatEvent_spec h hes herr hbytes hoff hpos hplaced
  let r₃ : ReadBinlogFile := { r₂ with m_status := .BINLOG_READ_DATA }
  have hbuf₃ : r₃.m_readBuf = fmt := hbuf
  have hdeliver := deliver_spec (r := r₃) (by rw [hbuf₃]; exact hplaced.len)
    (by rw [hbuf₃, h.format]; decide) (by rw [hbuf₃, h.format]; decide)
  rw [hbuf₃] at hdeliver
  refine ⟨r₃, ?_, .inl rfl, hcrc, hpath, hbytes,
    ⟨hreading.err, hreading.pos, hreading.offset, hreading.rest⟩⟩
  rw [readBinlogEvent_format herr hstatus, hformat]
  exact hdeliver

theorem setFile_succeeds (hoff : 4 ≤ off) (hsize : off ≤ file.length) :
    (r.setFile filePath (.ok file) off).1 = 0 := by
  simp only [setFile, setPosition, Nat.max_eq_left hoff]
  by_cases hsame : off = r.m_logEventOffset
  · rw [_setPosition_same rfl (by simpa [hoff] using hsame)]
    rfl
  · rw [_setPosition_move rfl (by simpa [hoff] using hsame) (by simpa [hoff] using hsize)]
    rfl

theorem ofPath_offset (hsize : 4 ≤ file.length) :
    (ofPath filePath (.ok file) crc).m_logEventOffset = 4 := by
  simp only [ofPath, setFile, setPosition, Nat.zero_max]
  rw [_setPosition_move rfl (by simp) (by simpa using hsize)]
  rfl

/-- The reader returns a fake rotate event to the offset, the format event of the file, the events
from the offset on, and then nothing. -/
def ReturnsFrom (crc32 : List UInt8 → Nat) (r : ReadBinlogFile) (filePath : List UInt8) (off : Nat)
    (fmt : List UInt8) (es : List (List UInt8)) : Prop :=
  ∃ fake, IsFakeRotateTo filePath off fake ∧ r.Replays crc32 (fake :: fmt :: eventsFrom off fmt es)

/-- A position the reader can take: at offset 4 it has to seek, the format event names its end, the
events it has to return are readable, and a stop event at the end is no obstacle. -/
structure Positionable (r : ReadBinlogFile) (filePath : List UInt8) (off : Nat) (fmt : List UInt8)
    (es : List (List UInt8)) : Prop where
  seeks : ¬(off = 4 ∧ r.m_logEventOffset = 4)
  logPos : korr 4 fmt LOG_POS_OFFSET ≠ 0
  readable : ∀ e ∈ fmt :: eventsFrom off fmt es, Readable e.length
  stops : StopsWell filePath (eventsFrom off fmt es)

/-- The calls behind the fake rotate give the format event and the events from the offset on. -/
theorem replays_format_iff (h : WellFormed file fmt es)
    (hes : es = before ++ after) (hset : r.IsSet filePath file off)
    (hoff : off = 4 ∧ before = [] ∨ off = 4 + fmt.length + before.flatten.length)
    (hpos : off = 4 → r.m_fileFD.pos = 4 ∨ r.m_fileFD.pos = 0)
    (hstatus : r.m_status = .BINLOG_READ_FORMAT) :
    r.Replays crc32 (fmt :: after) ↔
      ¬(off = 4 ∧ r.m_fileFD.pos = 0) ∧ korr 4 fmt LOG_POS_OFFSET ≠ 0 ∧
        (∀ e ∈ fmt :: after, Readable e.length) ∧ StopsWell filePath after := by
  have hsits : Sits 4 fmt := h.laid.1
  have hheader : 19 ≤ fmt.length := hsits.header
  by_cases hfront : off = 4 ∧ r.m_fileFD.pos = 0
  · -- no seek: what is read begins with the magic number
    obtain ⟨hfour, hzero⟩ := hfront
    refine iff_of_false ?_ fun hand => hand.1 ⟨hfour, hzero⟩
    rintro ⟨r', hcall, -⟩
    obtain ⟨⟨r₁, hread, htype, heq⟩, -⟩ := readFormat_returns hstatus hcall
    rw [_setPosition_same hset.err (by rw [hset.offset, hfour]; rfl)] at hread
    have hne : fmt ≠ [] := by rintro rfl; simp at hheader
    exact not_format_at_magic hzero (hset.bytes.trans h.bytes) hne hread htype heq
  have hpos' : r.m_logEventOffset = 4 → r.m_fileFD.pos = 4 := by
    intro hfour
    rw [hset.offset] at hfour
    exact (hpos hfour).resolve_right fun hzero => hfront ⟨hfour, hzero⟩
  have hsize : 4 ≤ r.m_fileFD.bytes.length := by
    have := h.length_eq hes
    rw [hset.bytes]
    omega
  by_cases hplaced : Placed 4 fmt
  · obtain ⟨r₂, hcall, hdata, hcrc, hpath, hbytes, hreading⟩ := readFormat_spec crc32 h
      hes hset.err hset.bytes (by rwa [hset.offset]) hpos' hstatus hplaced
    have hlength := h.length_eq hes
    have hlaid : Laid (4 + fmt.length + before.flatten.length) after := (hes ▸ h.laid.2).append
    have hrest := replays_iff_readable crc32 hdata hreading
      ⟨by omega, by rw [hbytes]; omega⟩ hlaid (by rw [hcrc]; exact (hes ▸ h.rotate).append)
    rw [hpath, hset.path] at hrest
    rw [Replays, hcall]
    simp [hrest, hfront, hplaced.logPos_ne_zero, hplaced.readable]
  · -- an event that is not placed at offset 4 is not returned as the format event
    refine iff_of_false ?_ ?_
    · rintro ⟨r', hcall, -⟩
      obtain ⟨⟨r₁, hread, -, rfl⟩, -⟩ := readFormat_returns hstatus hcall
      obtain ⟨hmoved, -⟩ := _setPosition_reading 4 hset.err (Nat.le_refl 4) hsize
        (fun heq => hpos' heq.symm) (List.flatten_singleton (l := r.m_fileFD.bytes.drop 4)).symm
      have := (readBinlog_inv hread).1
      rw [hmoved.offset] at this
      exact hplaced this
    · rintro ⟨-, hlogPos, hall, -⟩
      exact hplaced (hsits.placed (hall fmt List.mem_cons_self) fun _ => hlogPos)

/-- From any state: after a successful `setFile` on a well-formed file the reader returns what it
should if and only if it can take the position. -/
theorem returnsFrom_iff (h : WellFormed file fmt es) (hoff : IsBoundary off (fmt :: es))
    (hpath : filePath ≠ []) (hset : r.setFile filePath (.ok file) off = (0, r')) :
    r'.ReturnsFrom crc32 filePath off fmt es ↔ r.Positionable filePath off fmt es := by
  obtain ⟨before, hes, hwhere⟩ := exists_split h.laid hoff
  have hlength := h.length_eq hes
  have hsize := h.size
  have hfour : 4 ≤ off := by omega
  obtain ⟨hisSet, hstatus, hpos⟩ := setFile_spec hfour hset
  -- the first call
  have hoffset := hisSet.offset
  obtain ⟨fake, hfake, his⟩ := fakeRotateEvent_to crc32 (r := r') (by rw [hisSet.path]; exact hpath)
    (by rw [hoffset]; obtain ⟨rfl, -⟩ | rfl := hwhere <;> omega)
  rw [hisSet.path, hoffset] at his
  let r₁ : ReadBinlogFile := { r' with m_readBuf := fake, m_status := .BINLOG_READ_FORMAT }
  have hcall : r'.readBinlogEvent crc32 = some (0, some fake, r₁) := by
    rw [readBinlogEvent_fake hisSet.err hstatus, hfake]
    rfl
  have hfirst : r'.ReturnsFrom crc32 filePath off fmt es ↔
      r₁.Replays crc32 (fmt :: eventsFrom off fmt es) := by
    constructor
    · rintro ⟨e, -, r'', hcall', hrest⟩
      simp only [hcall, Option.some.injEq, Prod.mk.injEq, true_and] at hcall'
      rwa [← hcall'.2] at hrest
    · intro hrest
      exact ⟨fake, his, r₁, hcall, hrest⟩
  -- the other calls
  have hmoved : off = 4 → r₁.m_fileFD.pos = 4 ∨ r₁.m_fileFD.pos = 0 := by
    intro heq
    rw [show r₁.m_fileFD.pos = _ from hpos, heq]
    split_ifs <;> simp
  have hskip : off = 4 ∧ r₁.m_fileFD.pos = 0 ↔ off = 4 ∧ r.m_logEventOffset = 4 := by
    rw [show r₁.m_fileFD.pos = _ from hpos]
    split_ifs <;> omega
  have hset₁ : r₁.IsSet filePath file off :=
    ⟨hisSet.err, hisSet.path, hisSet.bytes, hisSet.offset⟩
  rw [hfirst, replays_format_iff h hes hset₁ hwhere hmoved rfl, hskip]
  constructor
  · rintro ⟨hseeks, hlogPos, hall, hstops⟩
    exact ⟨hseeks, hlogPos, hall, hstops⟩
  · rintro ⟨hseeks, hlogPos, hall, hstops⟩
    exact ⟨hseeks, hlogPos, hall, hstops⟩

/-- In every state that calls on any files lead to, a successful `setFile` on a well-formed file is
followed by the events it should be followed by if and only if the reader can take the position. -/
theorem run_returnsFrom_iff (crc32 : List UInt8 → Nat) (first : List UInt8)
    (file₀ : Except Nat (List UInt8)) (crc : UInt8) (calls : List Call)
    (h : WellFormed file fmt es) (hoff : IsBoundary off (fmt :: es)) (hpath : filePath ≠ []) :
    ∀ r, (ofPath first file₀ crc).run crc32 calls = some r →
      ∀ r', r.setFile filePath (.ok file) off = (0, r') →
        (r'.ReturnsFrom crc32 filePath off fmt es ↔ r.Positionable filePath off fmt es) := by
  intro r _ r' hset
  exact returnsFrom_iff h hoff hpath hset

def formatFile : List UInt8 := headMagicNumber ++ (WriteBinlogFile.formatCall 123).bytes

theorem length_formatFile : formatFile.length = 123 := by
  rw [formatFile, List.length_append, WriteBinlogFile.length_bytes]
  rfl

theorem wellFormed_formatFile :
    WellFormed formatFile (WriteBinlogFile.formatCall 123).bytes [] where
  size := by simp [length_formatFile]
  bytes := by simp [formatFile]
  laid := ⟨⟨by decide, by decide, .inl (by decide)⟩, trivial⟩
  format := by decide
  rotate := trivial

theorem isBoundary_four (events : List (List UInt8)) : IsBoundary 4 events :=
  ⟨[], events, rfl, rfl⟩

theorem setFile_formatFile (r : ReadBinlogFile) :
    r.setFile [98] (.ok formatFile) 4 = (0, (r.setFile [98] (.ok formatFile) 4).2) :=
  Prod.ext (setFile_succeeds (Nat.le_refl 4) (by simp [length_formatFile])) rfl

/-- Two events that stand behind the format event. -/
def laterEvents : List (List UInt8) :=
  [(WriteBinlogFile.eventCall 2 40 163).bytes, (WriteBinlogFile.eventCall 16 31 194).bytes]

def eventFile : List UInt8 :=
  headMagicNumber ++ ((WriteBinlogFile.formatCall 123).bytes :: laterEvents).flatten

theorem length_eventFile : eventFile.length = 194 := by
  simp only [eventFile, laterEvents, List.length_append, List.flatten_cons, List.flatten_nil,
    WriteBinlogFile.length_bytes, List.length_nil]
  rfl

theorem wellFormed_eventFile :
    WellFormed eventFile (WriteBinlogFile.formatCall 123).bytes laterEvents where
  size := by simp [length_eventFile]
  bytes := rfl
  laid := ⟨⟨by decide, by decide, .inl (by decide)⟩, ⟨by decide, by decide, .inl (by decide)⟩,
    ⟨by decide, by decide, .inl (by decide)⟩, trivial⟩
  format := by decide
  rotate := ⟨fun h => absurd h (by decide), fun h => absurd h (by decide), trivial⟩

set_option maxRecDepth 4000 in
/-- A reader that has been in another file, and is set to the end of the format event. -/
theorem run_returnsFrom_iff_later : ∃ r,
    (ofPath [97] (.error 2) 0).run (fun _ => 0)
      [.setFile [97] (.ok formatFile) 4, .readBinlogEvent, .readBinlogEvent] = some r ∧
    (r.setFile [98] (.ok eventFile) 123).2.ReturnsFrom (fun _ => 0) [98] 123
      (WriteBinlogFile.formatCall 123).bytes laterEvents := by
  obtain ⟨r, hr⟩ : ∃ r, (ofPath [97] (.error 2) 0).run (fun _ => 0)
      [.setFile [97] (.ok formatFile) 4, .readBinlogEvent, .readBinlogEvent] = some r := ⟨_, rfl⟩
  have hoff : IsBoundary 123 ((WriteBinlogFile.formatCall 123).bytes :: laterEvents) :=
    ⟨[_], _, rfl, rfl⟩
  have hset : r.setFile [98] (.ok eventFile) 123 = (0, (r.setFile [98] (.ok eventFile) 123).2) :=
    Prod.ext (setFile_succeeds (by decide) (by simp [length_eventFile])) rfl
  refine ⟨r, hr, (run_returnsFrom_iff (fun _ => 0) [97] (.error 2) 0 _ wellFormed_eventFile hoff
    (List.cons_ne_nil 98 []) r hr _ hset).mpr ⟨?_, ?_, ?_, ?_⟩⟩
  · rintro ⟨h, -⟩
    cases h
  · decide
  · decide
  · intro e he hstop
    have hlast : (eventsFrom 123 (WriteBinlogFile.formatCall 123).bytes laterEvents).getLast? =
        some (WriteBinlogFile.eventCall 16 31 194).bytes := rfl
    rw [hlast] at he
    cases he
    exact absurd hstop (by decide)

/-- A reader that has just been opened, and is set to the beginning of a file once more. -/
theorem not_returnsFrom_opened :
    WellFormed formatFile (WriteBinlogFile.formatCall 123).bytes [] ∧
      ∃ r r', (ofPath [98] (.ok formatFile) 0).run (fun _ => 0) [] = some r ∧
        r.setFile [98] (.ok formatFile) 4 = (0, r') ∧
        ¬r'.ReturnsFrom (fun _ => 0) [98] 4 (WriteBinlogFile.formatCall 123).bytes [] := by
  refine ⟨wellFormed_formatFile, _, _, rfl, setFile_formatFile _, ?_⟩
  rw [returnsFrom_iff wellFormed_formatFile (isBoundary_four _) (List.cons_ne_nil 98 [])
    (setFile_formatFile _)]
  exact fun h => h.seeks ⟨rfl, ofPath_offset (by simp [length_formatFile])⟩

end ReadBinlogFile

end DBStream.Native.DATA_SOURCE
