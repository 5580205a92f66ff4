import DBStream.Native.SolidFile
import DBStream.Spec.SolidCorrect

/-!
# The image of a solid block

`Shaped` collects what `toSolidBlock` guarantees about the tables of a block.  `offsetsOf`
and `imageOf` are the offsets and the file that the loop over the pages makes
(`writePages_eq`); `stored_imageOf` finds each page at its offset.  The head is read back from
every file (`loadFromFile_written`), the first page from the file of a compressed block
(`reload_fileImage`).
-/

namespace DBStream.Native

variable {I : IndexImpl}

/-! ## What `toSolidBlock` guarantees -/

/-- The tables of the block have the sizes of the head, and every page has its bytes. -/
structure SolidBlock.Shaped (s : SolidBlock) : Prop where
  tables : s.m_tableInfo.length = s.head.m_tableCount
  records : s.m_recordInfos.length = s.head.m_recordCount
  order : s.m_recordIdOrderyTable.length = s.head.m_recordCount
  offsets : s.pageOffsets.length = s.head.m_pageCount + 1
  count : s.pages.length = s.head.m_pageCount
  infos : s.pageInfo = s.pages.map SolidPage.info
  pages : ∀ (i : Nat) (p : SolidPage), s.pages[i]? = some p → p.info.pageId = i ∧
    ∃ d : List UInt8, p.pageData = some d ∧ p.info.pageUsedSize = d.length

namespace AppendingBlock

variable {b : AppendingBlock I}

/-- The invariant of the loop in `toSolidBlock` over the tables `done`. -/
structure Shaping (b : AppendingBlock I) (done : List (Nat × TableData I)) (c : Conversion) :
    Prop where
  infos : c.recordInfos.length = b.m_recordCount
  order : c.recordIdOrderyTable.length ≤ b.m_recordCount
  ids : ∀ (i : Nat) (p : Page), c.pages[i]? = some p → p.pageId = i
  tables : c.tableInfo.length = done.length
  start : done = [] → c.pages = [] ∧ c.recordIdOrderyTable = []
  first : ∀ e es, done = e :: es → ∃ more, c.tableInfo = tableInfoOf e.2 0 0 :: more

/-- The part of the invariant that the steps inside one table keep. -/
structure Filling (b : AppendingBlock I) (c₀ c : Conversion) : Prop where
  infos : c.recordInfos.length = b.m_recordCount
  order : c.recordIdOrderyTable.length ≤ b.m_recordCount
  ids : ∀ (i : Nat) (p : Page), c.pages[i]? = some p → p.pageId = i
  tables : c.tableInfo = c₀.tableInfo

variable {c₀ c c' : Conversion}

theorem Filling.addPage (h : Filling b c₀ c) {p : Page} (heq : b.addPage c p = .ok c') :
    Filling b c₀ c' := by
  unfold AppendingBlock.addPage at heq
  split at heq
  · cases heq
    refine ⟨h.infos, h.order, ?_, h.tables⟩
    intro i q hq
    by_cases hi : i < c.pages.length
    · rw [List.getElem?_append_left hi] at hq
      exact h.ids i q hq
    · rw [List.getElem?_append_right (by omega)] at hq
      obtain ⟨hlt, hget⟩ := List.getElem?_eq_some_iff.mp hq
      simp only [List.length_singleton] at hlt
      rw [List.getElem_singleton] at hget
      rw [← hget]
      show c.pages.length = i
      omega
  · cases heq

theorem Filling.addIndexPage (h : Filling b c₀ c) {x : I.KeyMeta × I.Index}
    (heq : b.addIndexPage c x = .ok c') : Filling b c₀ c' := by
  obtain ⟨p, -, heq⟩ := Exec.of_bind heq
  exact h.addPage heq

theorem Filling.addDataPage (h : Filling b c₀ c) {slot : Nat}
    (heq : b.addDataPage c slot = .ok c') : Filling b c₀ c' := by
  obtain ⟨p, -, heq⟩ := Exec.of_bind heq
  split at heq
  · have hmapped : Filling b c₀
        { c with pageMap := Function.update c.pageMap p.pageId (some c.pages.length) } :=
      ⟨h.infos, h.order, h.ids, h.tables⟩
    exact hmapped.addPage heq
  · cases heq

theorem Filling.addRecordInfo (h : Filling b c₀ c) {tableIdx rid : Nat}
    (heq : b.addRecordInfo tableIdx c rid = .ok c') : Filling b c₀ c' := by
  unfold AppendingBlock.addRecordInfo at heq
  split at heq
  · cases heq
  · split at heq
    · cases heq
    · obtain ⟨d, -, heq⟩ := Exec.of_bind heq
      split at heq
      · rename_i hroom
        cases heq
        refine ⟨?_, ?_, h.ids, h.tables⟩
        · rw [List.length_set]
          exact h.infos
        · rw [List.length_append, List.length_singleton]
          omega
      · cases heq

theorem Filling.foldlM {β : Type} {f : Conversion → β → Exec Conversion}
    (hstep : ∀ c c' x, Filling b c₀ c → f c x = .ok c' → Filling b c₀ c') {l : List β}
    (h : Filling b c₀ c) (heq : l.foldlM f c = .ok c') : Filling b c₀ c' := by
  induction l generalizing c with
  | nil =>
    cases heq
    exact h
  | cons x l ih =>
    obtain ⟨c₁, hx, heq⟩ := Exec.of_bind heq
    exact ih (hstep c c₁ x h hx) heq

theorem Shaping.convertTable {done : List (Nat × TableData I)} {e : Nat × TableData I}
    (h : Shaping b done c) (heq : b.convertTable c e = .ok c') : Shaping b (done ++ [e]) c' := by
  obtain ⟨c₁, h₁, heq⟩ := Exec.of_bind heq
  obtain ⟨c₂, h₂, heq⟩ := Exec.of_bind heq
  obtain ⟨c₃, h₃, heq⟩ := Exec.of_bind heq
  cases heq
  have hfill₀ : Filling b c c := ⟨h.infos, h.order, h.ids, rfl⟩
  have hfill₁ := Filling.foldlM (fun _ _ _ hc hx => hc.addIndexPage hx) hfill₀ h₁
  have hfill₂ := Filling.foldlM (fun _ _ _ hc hx => hc.addDataPage hx) hfill₁ h₂
  have hfill := Filling.foldlM (fun _ _ _ hc hx => hc.addRecordInfo hx) hfill₂ h₃
  refine ⟨hfill.infos, hfill.order, hfill.ids, ?_, ?_, ?_⟩
  · simp [hfill.tables, h.tables]
  · intro hnil
    simp at hnil
  · intro e' es hes
    cases done with
    | nil =>
      -- the first table starts at page 0
      obtain ⟨hpages, horder⟩ := h.start rfl
      have hlen := h.tables
      cases hes
      have hnil : c.tableInfo = [] := List.length_eq_zero_iff.mp hlen
      refine ⟨[], ?_⟩
      rw [hfill.tables, hnil, hpages, horder]
      rfl
    | cons x done =>
      cases hes
      obtain ⟨more, hmore⟩ := h.first e' done rfl
      exact ⟨more ++ [tableInfoOf e.2 c.pages.length c.recordIdOrderyTable.length], by
        rw [hfill.tables, hmore, List.cons_append]⟩

theorem Shaping.foldlM {done rest : List (Nat × TableData I)} (h : Shaping b done c)
    (heq : rest.foldlM b.convertTable c = .ok c') : Shaping b (done ++ rest) c' := by
  induction rest generalizing done c with
  | nil =>
    cases heq
    rw [List.append_nil]
    exact h
  | cons e rest ih =>
    obtain ⟨c₁, he, heq⟩ := Exec.of_bind heq
    have hrest := ih (h.convertTable he) heq
    rw [List.append_assoc, List.singleton_append] at hrest
    exact hrest

theorem toSolidBlock_shaped {s : SolidBlock} (h : b.toSolidBlock = .ok s) :
    s.Shaped ∧ ∀ e es, b.m_tableDatas.entries = e :: es →
      ∃ more, s.m_tableInfo = tableInfoOf e.2 0 0 :: more := by
  unfold toSolidBlock at h
  split at h
  · rename_i hcount
    obtain ⟨c, hc, h⟩ := Exec.of_bind h
    have hstart : Shaping b [] ⟨[], fun _ => none, List.replicate b.m_recordCount {}, [], []⟩ :=
      ⟨by simp, by simp, by simp, rfl, fun _ => ⟨rfl, rfl⟩, fun _ _ hnil => by cases hnil⟩
    have hshape := hstart.foldlM hc
    split at h
    · rename_i hpages
      cases h
      refine ⟨⟨?_, hshape.infos, ?_, ?_, ?_, ?_, ?_⟩, fun e es hes => ?_⟩
      · show c.tableInfo.length = b.m_tableCount
        rw [hshape.tables, hcount]
        rfl
      · show (c.recordIdOrderyTable ++ _).length = b.m_recordCount
        have horder := hshape.order
        rw [List.length_append, List.length_replicate]
        omega
      · show (List.replicate (b.m_pageCount + 1) 0).length = b.m_pageCount + 1
        exact List.length_replicate
      · show (c.pages.map SolidPage.ofPage).length = b.m_pageCount
        rw [List.length_map, hpages]
      · show c.pages.map _ = (c.pages.map SolidPage.ofPage).map SolidPage.info
        rw [List.map_map]
        rfl
      · intro i p hp
        change (c.pages.map SolidPage.ofPage)[i]? = some p at hp
        rw [List.getElem?_map] at hp
        obtain ⟨q, hq, rfl⟩ := Option.map_eq_some_iff.mp hp
        exact ⟨hshape.ids i q hq, q.pageData, rfl, rfl⟩
      · exact hshape.first e es hes
    · cases h
  · cases h

end AppendingBlock

/-! ## The pages in the file -/

theorem le_align (x : Nat) : x ≤ align x := by
  unfold align
  omega

theorem align_le (x : Nat) : align x ≤ x + 511 := by
  unfold align
  omega

def SolidPage.bytes (p : SolidPage) : List UInt8 := p.pageData.getD []

/-- The page with the `crc` that `writepage` sets. -/
def SolidPage.written (compress : Bool) (p : SolidPage) : SolidPage :=
  { p with info := { p.info with crc := writtenCrc compress p.bytes } }

variable {lz4 : Lz4} {io : FileIo} {compress : Bool}

/-- The number of bytes that are reserved for a page. -/
def storedSize (lz4 : Lz4) (compress : Bool) (d : List UInt8) : Nat :=
  (writeData lz4 compress .empty d 0).1

private theorem writeData_fst (lz4 : Lz4) (compress : Bool) (f : DiskImage) (d : List UInt8)
    (offset : Nat) : (writeData lz4 compress f d offset).1 = storedSize lz4 compress d := by
  unfold storedSize writeData
  split
  · split <;> rfl
  · rfl

/-- The offsets of the pages, and the end of the last one. -/
def offsetsOf (lz4 : Lz4) (compress : Bool) : List (List UInt8) → Nat → List Nat
  | [], pos => [pos]
  | d :: ds, pos => pos :: offsetsOf lz4 compress ds (align pos + storedSize lz4 compress d)

/-- The file after the pages were written. -/
def imageOf (lz4 : Lz4) (compress : Bool) : List (List UInt8) → Nat → DiskImage → DiskImage
  | [], _, f => f
  | d :: ds, pos, f => imageOf lz4 compress ds (align pos + storedSize lz4 compress d)
      (writeData lz4 compress f d (align pos)).2

theorem writePages_eq (lz4 : Lz4) (compress : Bool) (hio : io.Works) {ps : List SolidPage}
    {idx : Nat} (pos : Nat) (f : DiskImage)
    (hps : ∀ (i : Nat) (p : SolidPage), ps[i]? = some p →
      p.info.pageId = idx + i ∧ ∃ d, p.pageData = some d) :
    ∃ w, writePages lz4 io compress ps idx pos f = .ok (some w) ∧
      w.pages = ps.map (SolidPage.written compress) ∧
      w.offsets ++ [w.pos] = offsetsOf lz4 compress (ps.map SolidPage.bytes) pos ∧
      w.image = imageOf lz4 compress (ps.map SolidPage.bytes) pos f := by
  induction ps generalizing idx pos f with
  | nil => exact ⟨⟨[], [], pos, f⟩, rfl, rfl, rfl, rfl⟩
  | cons p ps ih =>
    obtain ⟨hid, d, hd⟩ := hps 0 p rfl
    have hrest : ∀ (i : Nat) (q : SolidPage), ps[i]? = some q →
        q.info.pageId = idx + 1 + i ∧ ∃ d, q.pageData = some d := by
      intro i q hq
      have hnext := hps (i + 1) q (by simpa using hq)
      exact ⟨by omega, hnext.2⟩
    have hsize := writeData_fst lz4 compress f d (align pos)
    have hbytes : p.bytes = d := by simp [SolidPage.bytes, hd]
    cases hwrite : writeData lz4 compress f d (align pos) with
    | mk size f₁ =>
      obtain ⟨w, hw, hpages, hoffsets, himage⟩ := ih (align pos + size) f₁ hrest
      rw [hwrite] at hsize
      change size = storedSize lz4 compress d at hsize
      refine ⟨⟨p.written compress :: w.pages, pos :: w.offsets, w.pos, w.image⟩, ?_, ?_, ?_, ?_⟩
      · unfold writePages
        rw [if_pos (by omega), hd, deref_some]
        simp only [Exec.ok_bind, hwrite, hio.seekOk, hio.pageWritten, and_self, if_true, hw,
          SolidPage.written, hbytes, hd]
        rfl
      · rw [hpages, List.map_cons]
      · show pos :: (w.offsets ++ [w.pos]) = _
        rw [hoffsets, List.map_cons, offsetsOf, hbytes, hsize]
      · show w.image = _
        rw [himage, List.map_cons, imageOf, hbytes, hwrite, ← hsize]

private theorem offsetsOf_zero (lz4 : Lz4) (compress : Bool) (ds : List (List UInt8)) (pos : Nat) :
    (offsetsOf lz4 compress ds pos)[0]? = some pos := by
  cases ds <;> rfl

theorem length_offsetsOf (lz4 : Lz4) (compress : Bool) (ds : List (List UInt8)) (pos : Nat) :
    (offsetsOf lz4 compress ds pos).length = ds.length + 1 := by
  induction ds generalizing pos with
  | nil => rfl
  | cons d ds ih => simp [offsetsOf, ih]

private theorem writeData_below (lz4 : Lz4) (compress : Bool) (f : DiskImage) (d : List UInt8)
    (offset : Nat) :
    f.length ≤ (writeData lz4 compress f d offset).2.length ∧
      ∀ i < offset, (writeData lz4 compress f d offset).2.byte i = f.byte i := by
  unfold writeData
  split
  · split
    · exact ⟨Nat.le_refl _, fun _ _ => rfl⟩
    · exact ⟨DiskImage.length_le_write, fun i hi => DiskImage.byte_write_lt hi⟩
  · exact ⟨DiskImage.length_le_write, fun i hi => DiskImage.byte_write_lt hi⟩

theorem writeData_behind {f : DiskImage} {d : List UInt8} {offset i : Nat}
    (hi : offset + storedSize lz4 compress d ≤ i) :
    (writeData lz4 compress f d offset).2.byte i = f.byte i := by
  unfold storedSize writeData at hi
  unfold writeData
  split at hi
  · split at hi
    · simp [*]
    · rename_i hcompress hsmall
      rw [if_pos hcompress, if_neg hsmall]
      exact DiskImage.byte_write_ge hi
  · rename_i hcompress
    rw [if_neg hcompress]
    exact DiskImage.byte_write_ge hi

theorem imageOf_below (lz4 : Lz4) (compress : Bool) (ds : List (List UInt8)) (pos : Nat)
    (f : DiskImage) :
    f.length ≤ (imageOf lz4 compress ds pos f).length ∧
      ∀ i < pos, (imageOf lz4 compress ds pos f).byte i = f.byte i := by
  induction ds generalizing pos f with
  | nil => exact ⟨Nat.le_refl _, fun _ _ => rfl⟩
  | cons d ds ih =>
    obtain ⟨hlen, hbyte⟩ := ih (align pos + storedSize lz4 compress d)
      (writeData lz4 compress f d (align pos)).2
    have hwrite := writeData_below lz4 compress f d (align pos)
    have hpos := le_align pos
    refine ⟨hwrite.1.trans hlen, fun i hi => ?_⟩
    rw [imageOf, hbyte i (by omega), hwrite.2 i (by omega)]

/-- A compressed page is in the file at `off`; of a page that is too large only the room is. -/
def Stored (lz4 : Lz4) (f : DiskImage) (off : Nat) (d : List UInt8) : Prop :=
  if d.length ≤ LZ4_MAX_INPUT_SIZE then
    f.read off (storedSize lz4 true d) = some (lz4.compress d)
  else ∀ i < storedSize lz4 true d, f.byte (off + i) = 0

theorem Stored.of_agree {f g : DiskImage} {off : Nat} {d : List UInt8} (h : Stored lz4 f off d)
    (hlen : f.length ≤ g.length)
    (hbyte : ∀ i < storedSize lz4 true d, g.byte (off + i) = f.byte (off + i)) :
    Stored lz4 g off d := by
  unfold Stored at h ⊢
  split at h
  · rename_i hsmall
    rw [if_pos hsmall]
    exact DiskImage.read_of_agree hlen hbyte h
  · rename_i hlarge
    rw [if_neg hlarge]
    intro i hi
    rw [hbyte i hi, h i hi]

theorem storedSize_small {d : List UInt8} (h : d.length ≤ LZ4_MAX_INPUT_SIZE) :
    storedSize lz4 true d = (lz4.compress d).length := by
  unfold storedSize writeData
  rw [if_pos rfl, if_neg (by omega)]

theorem stored_writeData (lz4 : Lz4) {f : DiskImage} {off : Nat} (d : List UInt8)
    (hzero : ∀ i, off ≤ i → f.byte i = 0) :
    Stored lz4 (writeData lz4 true f d off).2 off d := by
  unfold Stored
  split
  · rename_i hsmall
    rw [storedSize_small hsmall]
    unfold writeData
    rw [if_pos rfl, if_neg (by omega)]
    exact DiskImage.read_write_self
  · rename_i hlarge
    intro i _
    unfold writeData
    rw [if_pos rfl, if_pos (by omega)]
    exact hzero (off + i) (by omega)

/-- Each page is stored at the next multiple of 512 of its offset, and its room ends at the next
    offset. -/
theorem stored_imageOf (lz4 : Lz4) {ds : List (List UInt8)} (pos : Nat) (f : DiskImage)
    (hzero : ∀ i, pos ≤ i → f.byte i = 0) {j : Nat} {d : List UInt8} (hj : ds[j]? = some d) :
    ∃ a, (offsetsOf lz4 true ds pos)[j]? = some a ∧
      (offsetsOf lz4 true ds pos)[j + 1]? = some (align a + storedSize lz4 true d) ∧ pos ≤ a ∧
      Stored lz4 (imageOf lz4 true ds pos f) (align a) d := by
  induction ds generalizing pos f j with
  | nil => simp at hj
  | cons d₀ ds ih =>
    have hpos := le_align pos
    cases j with
    | zero =>
      simp only [List.getElem?_cons_zero, Option.some.injEq] at hj
      subst hj
      refine ⟨pos, rfl, ?_, Nat.le_refl _, ?_⟩
      · rw [offsetsOf, List.getElem?_cons_succ, offsetsOf_zero]
      · -- the later pages are written behind this one
        have hbelow := imageOf_below lz4 true ds (align pos + storedSize lz4 true d₀)
          (writeData lz4 true f d₀ (align pos)).2
        have hstored : Stored lz4 (writeData lz4 true f d₀ (align pos)).2 (align pos) d₀ :=
          stored_writeData lz4 d₀ fun i hi => hzero i (by omega)
        exact hstored.of_agree hbelow.1 fun i hi => hbelow.2 _ (by omega)
    | succ j =>
      have hnext : ∀ i, align pos + storedSize lz4 true d₀ ≤ i →
          (writeData lz4 true f d₀ (align pos)).2.byte i = 0 := by
        intro i hi
        rw [writeData_behind hi]
        exact hzero i (by omega)
      obtain ⟨a, ha, hend, hle, hstored⟩ := ih _ _ hnext hj
      exact ⟨a, by rw [offsetsOf, List.getElem?_cons_succ]; exact ha,
        by rw [offsetsOf, List.getElem?_cons_succ]; exact hend, by omega, hstored⟩

/-! ## Head and first page -/

namespace SolidBlock

variable {s : SolidBlock}

/-- The place of the first page behind the head and the first page. -/
def pagesStart (s : SolidBlock) : Nat := align (headSize + LZ4_COMPRESSBOUND s.firstPage.length)

/-- The block with the tables as they are written: the `crc` of each page and the offsets. -/
def laidOut (lz4 : Lz4) (compress : Bool) (s : SolidBlock) : SolidBlock :=
  { s with
    pages := s.pages.map (SolidPage.written compress)
    pageInfo := s.pages.map fun p => (p.written compress).info
    pageOffsets := offsetsOf lz4 compress (s.pages.map SolidPage.bytes) s.pagesStart }

/-- The fields of the block hold values of their types; the tables are counted with a `uint16_t` in
    `toSolidBlock`. -/
structure Typed (s : SolidBlock) : Prop where
  head : BlockHead.codec.Fits s.head
  tables : ∀ x ∈ s.m_tableInfo, TableDataInfo.codec.Fits x
  records : ∀ x ∈ s.m_recordInfos, RecordGeneralInfo.codec.Fits x
  order : ∀ x ∈ s.m_recordIdOrderyTable, (Codec.word 4).Fits x
  pageInfo : ∀ p ∈ s.pages, PageInfo.codec.Fits p.info
  tableCount : s.m_tableInfo.length < 2 ^ 16

/-- Without pages, the write of a `crc` into `pageInfo` stays in the buffer of the first page. -/
def EmptyInBuffer (s : SolidBlock) : Prop :=
  s.head.m_pageCount ≠ 0 ∨ s.firstPage.length + 16 ≤ poolSize s.firstPage.length

theorem length_firstPage (s : SolidBlock) : s.firstPage.length =
    s.m_tableInfo.length * 20 + (s.m_recordInfos.length * 25 + (s.m_recordIdOrderyTable.length * 4 +
      (s.pageOffsets.length * 8 + s.pageInfo.length * 40))) := by
  simp only [firstPage, List.length_append, Codec.length_encodeAll]
  rfl

theorem length_firstPage_laidOut (lz4 : Lz4) (compress : Bool) (hs : s.Shaped) :
    (s.laidOut lz4 compress).firstPage.length = s.firstPage.length := by
  rw [length_firstPage, length_firstPage]
  simp only [laidOut, length_offsetsOf, List.length_map, hs.offsets, hs.infos, hs.count]

theorem withPages_eq (hs : s.Shaped) {w : PagesWritten}
    (hpages : w.pages = s.pages.map (SolidPage.written compress))
    (hoffsets : w.offsets ++ [w.pos] =
      offsetsOf lz4 compress (s.pages.map SolidPage.bytes) s.pagesStart) :
    s.withPages w = s.laidOut lz4 compress := by
  have hinfo : s.pageInfo.zipWith (fun info p => { info with crc := p.info.crc }) w.pages =
      s.pages.map fun p => (p.written compress).info := by
    rw [hs.infos, hpages, List.zipWith_map, List.zipWith_self]
    rfl
  rw [withPages, laidOut, hinfo, hpages, hoffsets]

theorem setFirstCrc_laidOut (hs : s.Shaped) (hbuf : s.EmptyInBuffer) :
    (s.laidOut lz4 true).setFirstCrc 0 = .ok (s.laidOut lz4 true) := by
  unfold setFirstCrc
  cases hp : s.pages with
  | nil =>
    have hinfo : (s.laidOut lz4 true).pageInfo = [] := by simp [laidOut, hp]
    have hcount : s.head.m_pageCount = 0 := by simp [← hs.count, hp]
    have hroom : s.firstPage.length + 16 ≤ poolSize s.firstPage.length :=
      hbuf.resolve_left fun hne => hne hcount
    rw [hinfo, length_firstPage_laidOut _ _ hs]
    exact if_pos hroom
  | cons p ps =>
    have hinfo : (s.laidOut lz4 true).pageInfo =
        (p.written true).info :: ps.map fun p => (p.written true).info := by simp [laidOut, hp]
    rw [hinfo]
    show Except.ok { s.laidOut lz4 true with
      pageInfo := (p.written true).info :: ps.map fun q : SolidPage => (q.written true).info } = _
    rw [← hinfo]

theorem setFirstCrc_overrun (hs : s.Shaped) (hbuf : ¬ s.EmptyInBuffer) (crc : Nat) :
    (s.laidOut lz4 compress).setFirstCrc crc = .error .outOfBounds := by
  have hcount : s.head.m_pageCount = 0 := by
    by_contra h
    exact hbuf (Or.inl h)
  have hroom : ¬ s.firstPage.length + 16 ≤ poolSize s.firstPage.length := fun h =>
    hbuf (Or.inr h)
  have hnil : s.pages = [] := List.length_eq_zero_iff.mp (by rw [hs.count, hcount])
  have hinfo : (s.laidOut lz4 compress).pageInfo = [] := by simp [laidOut, hnil]
  unfold setFirstCrc
  rw [hinfo, length_firstPage_laidOut _ _ hs]
  exact if_neg hroom

def fileHead (lz4 : Lz4) (s : SolidBlock) (pos : Nat) : BlockHead :=
  (s.laidOut lz4 true).writtenHead (lz4.compress (s.laidOut lz4 true).firstPage).length
    (headSize + (s.pages.map fun p => p.info.pageUsedSize).sum +
      (s.laidOut lz4 true).firstPage.length) pos

/-- The file of a compressed block. -/
def fileImage (lz4 : Lz4) (s : SolidBlock) (pos : Nat) : DiskImage :=
  ((imageOf lz4 true (s.pages.map SolidPage.bytes) s.pagesStart .empty).write headSize
    (lz4.compress (s.laidOut lz4 true).firstPage)).write 0 (BlockHead.codec.encode (s.fileHead lz4 pos))

theorem writeToFile_pages (lz4 : Lz4) (hs : s.Shaped) (hio : io.Works)
    (hflush : s.head.m_flag.flushed = false) :
    ∃ w : PagesWritten, w.image = imageOf lz4 s.head.m_flag.compress (s.pages.map SolidPage.bytes) s.pagesStart
        .empty ∧
      s.writeToFile lz4 io = (do
        let b ← (s.laidOut lz4 s.head.m_flag.compress).setFirstCrc
          (writtenCrc s.head.m_flag.compress (s.laidOut lz4 s.head.m_flag.compress).firstPage)
        let h := b.writtenHead
          (writeData lz4 s.head.m_flag.compress w.image b.firstPage headSize).1
          (headSize + (s.pages.map fun p => p.info.pageUsedSize).sum + b.firstPage.length) w.pos
        return some ({ b with head := { h with m_flag := { h.m_flag with flushed := true } } },
          some ((writeData lz4 s.head.m_flag.compress w.image b.firstPage headSize).2.write 0
            (BlockHead.codec.encode h)))) := by
  have hps : ∀ (i : Nat) (p : SolidPage), s.pages[i]? = some p →
      p.info.pageId = 0 + i ∧ ∃ d, p.pageData = some d := by
    intro i p hp
    obtain ⟨hid, d, hd, -⟩ := hs.pages i p hp
    exact ⟨by omega, d, hd⟩
  obtain ⟨w, hw, hpages, hoffsets, himage⟩ :=
    writePages_eq lz4 s.head.m_flag.compress hio s.pagesStart .empty hps
  refine ⟨w, himage, ?_⟩
  unfold writeToFile
  rw [if_neg (by simp [hflush]), if_pos hio.opened]
  change (writePages lz4 io s.head.m_flag.compress s.pages 0 s.pagesStart .empty >>= _) = _
  rw [hw, Exec.ok_bind]
  simp only [withPages_eq hs hpages hoffsets, hio.seekOk, hio.firstPageWritten, hio.headWritten,
    hio.synced, hio.renamed, and_self, if_true]

theorem writeToFile_compressed (lz4 : Lz4) (hs : s.Shaped) (hio : io.Works)
    (hflush : s.head.m_flag.flushed = false) (hcompress : s.head.m_flag.compress = true)
    (hbuf : s.EmptyInBuffer) (hsmall : s.firstPage.length ≤ LZ4_MAX_INPUT_SIZE) :
    ∃ pos head, s.writeToFile lz4 io =
      .ok (some ({ s.laidOut lz4 true with head := head }, some (s.fileImage lz4 pos))) := by
  obtain ⟨w, himage, hwrite⟩ := writeToFile_pages lz4 hs hio hflush
  rw [hcompress] at himage hwrite
  have hcrc : writtenCrc true (s.laidOut lz4 true).firstPage = 0 := rfl
  have hdata : writeData lz4 true w.image (s.laidOut lz4 true).firstPage headSize =
      ((lz4.compress (s.laidOut lz4 true).firstPage).length,
        w.image.write headSize (lz4.compress (s.laidOut lz4 true).firstPage)) := by
    unfold writeData
    rw [if_pos rfl, if_neg (by rw [length_firstPage_laidOut _ _ hs]; omega)]
  rw [hcrc, setFirstCrc_laidOut hs hbuf, Exec.ok_bind, hdata, himage] at hwrite
  exact ⟨w.pos, _, hwrite⟩

/-! ## Reading the file -/

theorem fits_writtenHead (h : BlockHead.codec.Fits s.head) (size rawSize fileSize : Nat) :
    BlockHead.codec.Fits (s.writtenHead size rawSize fileSize) := by
  have hword : ∀ n : Nat, n % 2 ^ 32 < 256 ^ 4 := fun n => Nat.mod_lt n (by norm_num)
  have hcrc : (s.writtenHead size rawSize fileSize).m_crc < 256 ^ 4 := by
    unfold writtenHead
    dsimp only
    exact hwCrc32c_lt _
  simp only [BlockHead.codec, Codec.ofWords, List.forall₂_cons] at h ⊢
  obtain ⟨h₁, h₂, h₃, h₄, h₅, h₆, h₇, h₈, h₉, h₁₀, h₁₁, h₁₂, h₁₃, h₁₄, h₁₅, -, -, -, -, -, h₂₁⟩ := h
  exact ⟨h₁, h₂, h₃, h₄, h₅, h₆, h₇, h₈, h₉, h₁₀, h₁₁, h₁₂, h₁₃, h₁₄, h₁₅, hword _, hword _,
    hword _, hword _, hcrc, h₂₁⟩

/-- The words of the head in front of the checksum. -/
def frontWords (h : BlockHead) : List Nat :=
  [h.m_version, h.m_flag.toNat, h.m_blockID, h.m_prevBlockID, h.m_tableID, h.m_minTime,
    h.m_maxTime, h.m_minLogOffset, h.m_maxLogOffset, h.m_minRecordId, h.m_recordCount,
    h.m_minTxnId, h.m_maxTxnId, h.m_tableCount, h.m_pageCount, h.m_solidBlockHeadPageRawSize,
    h.m_solidBlockHeadPageSize, h.m_rawSize, h.m_fileSize]

theorem take_encode_head (h : BlockHead) (crc : Nat) :
    (BlockHead.codec.encode { h with m_crc := crc }).take (headSize - 4) =
      (BlockHead.codec.encode h).take (headSize - 4) := by
  have hsplit : ∀ h : BlockHead, BlockHead.codec.encode h =
      LE.fields [4, 4, 4, 4, 8, 8, 8, 8, 8, 8, 4, 4, 4, 4, 2, 4, 4, 4, 4] (frontWords h) ++
        LE.bytes 4 h.m_crc :=
    fun h => LE.fields_concat [4, 4, 4, 4, 8, 8, 8, 8, 8, 8, 4, 4, 4, 4, 2, 4, 4, 4, 4]
      (frontWords h) rfl 4 h.m_crc
  have hlen : ∀ h : BlockHead, (LE.fields [4, 4, 4, 4, 8, 8, 8, 8, 8, 8, 4, 4, 4, 4, 2, 4, 4, 4, 4]
      (frontWords h)).length = headSize - 4 := fun _ => LE.length_fields rfl
  rw [hsplit, hsplit, List.take_left' (hlen _), List.take_left' (hlen _)]
  rfl

theorem loadFromFile_written (f : DiskImage) (h : BlockHead.codec.Fits s.head)
    (size rawSize fileSize : Nat) :
    loadFromFile (f.write 0 (BlockHead.codec.encode (s.writtenHead size rawSize fileSize)))
      s.head.m_blockID = some (s.writtenHead size rawSize fileSize) := by
  have hread : (f.write 0 (BlockHead.codec.encode (s.writtenHead size rawSize fileSize))).read 0
      headSize = some (BlockHead.codec.encode (s.writtenHead size rawSize fileSize)) := by
    have hlen : (BlockHead.codec.encode (s.writtenHead size rawSize fileSize)).length = headSize :=
      BlockHead.codec.length_encode _
    rw [← hlen]
    exact DiskImage.read_write_self
  unfold loadFromFile
  rw [hread]
  simp only [BlockHead.codec.decode_encode _ (fits_writtenHead h size rawSize fileSize)]
  rw [if_pos]
  constructor
  · rfl
  · unfold writtenHead
    rw [take_encode_head]

def loaded (lz4 : Lz4) (s : SolidBlock) (pos : Nat) : SolidBlock :=
  { s.laidOut lz4 true with
    head := { s.fileHead lz4 pos with
      m_flag := { (s.fileHead lz4 pos).m_flag with flushed := true } }
    pageInfo := []
    pages := s.pages.map fun p => { info := (p.written true).info, pageData := none } }

theorem Typed.pageCount_lt (ht : s.Typed) : s.head.m_pageCount < 2 ^ 16 := by
  have h := ht.head
  simp only [BlockHead.codec, Codec.ofWords, List.forall₂_cons] at h
  omega

theorem firstPage_small (hs : s.Shaped) (ht : s.Typed)
    (hrecords : s.head.m_recordCount ≤ maxRecordInBlock) :
    s.firstPage.length ≤ LZ4_MAX_INPUT_SIZE := by
  have htables := ht.tableCount
  have hpages := ht.pageCount_lt
  have hinfos : s.pageInfo.length = s.head.m_pageCount := by rw [hs.infos, List.length_map, hs.count]
  rw [length_firstPage, hs.records, hs.order, hs.offsets, hinfos]
  unfold maxRecordInBlock at hrecords
  unfold LZ4_MAX_INPUT_SIZE
  omega

theorem compressBound_lt {n : Nat} : LZ4_COMPRESSBOUND n < 2 ^ 32 := by
  unfold LZ4_COMPRESSBOUND LZ4_MAX_INPUT_SIZE
  split <;> omega

theorem storedSize_lt (lz4 : Lz4) (d : List UInt8) : storedSize lz4 true d < 2 ^ 32 := by
  by_cases hsmall : d.length ≤ LZ4_MAX_INPUT_SIZE
  · have hlen := lz4.length_compress d hsmall
    have hbound : LZ4_COMPRESSBOUND d.length < 2 ^ 32 := compressBound_lt
    rw [storedSize_small hsmall]
    omega
  · unfold storedSize writeData
    rw [if_pos rfl, if_pos (by omega)]
    exact Nat.mod_lt _ (by norm_num)

theorem offsetsOf_le {ds : List (List UInt8)} {pos x : Nat}
    (hx : x ∈ offsetsOf lz4 true ds pos) : x ≤ pos + ds.length * 2 ^ 33 := by
  induction ds generalizing pos with
  | nil =>
    rw [List.mem_singleton.mp hx]
    omega
  | cons d ds ih =>
    rw [List.length_cons, Nat.succ_mul]
    cases List.mem_cons.mp hx with
    | inl heq => omega
    | inr hmem =>
      have hle := ih hmem
      have hsize := storedSize_lt lz4 d
      have halign := align_le pos
      omega

theorem fits_offsets (lz4 : Lz4) (hs : s.Shaped) (ht : s.Typed) :
    ∀ x ∈ (s.laidOut lz4 true).pageOffsets, (Codec.word 8).Fits x := by
  intro x hx
  have hle : x ≤ s.pagesStart + _ := offsetsOf_le hx
  have hpages := ht.pageCount_lt
  have hbound : LZ4_COMPRESSBOUND s.firstPage.length < 2 ^ 32 := compressBound_lt
  have hstart := align_le (headSize + LZ4_COMPRESSBOUND s.firstPage.length)
  rw [List.length_map, hs.count] at hle
  unfold pagesStart headSize at *
  show x < 256 ^ 8
  omega

theorem fits_infos (ht : s.Typed) :
    ∀ x ∈ s.pages.map fun p => (p.written true).info, PageInfo.codec.Fits x := by
  intro x hx
  obtain ⟨p, hp, rfl⟩ := List.mem_map.mp hx
  have h := ht.pageInfo p hp
  simp only [PageInfo.codec, Codec.ofWords, List.forall₂_cons] at h ⊢
  exact ⟨h.1, h.2.1, h.2.2.1, by simp [SolidPage.written, writtenCrc], h.2.2.2.2⟩

/-- The first page is read back as it was laid out. -/
theorem parseFirstPage_laidOut (hs : s.Shaped) (ht : s.Typed) (pos : Nat) :
    parseFirstPage (s.fileHead lz4 pos) (s.laidOut lz4 true).firstPage = s.loaded lz4 pos := by
  have hoffsets : (s.laidOut lz4 true).pageOffsets.length = s.head.m_pageCount + 1 := by
    simp [laidOut, length_offsetsOf, hs.count]
  have hinfos : (s.pages.map fun p => (p.written true).info).length = s.head.m_pageCount := by
    rw [List.length_map, hs.count]
  have h₁ := TableDataInfo.codec.decodeAll_encodeAll ht.tables
  have h₂ := RecordGeneralInfo.codec.decodeAll_encodeAll ht.records
  have h₃ := (Codec.word 4).decodeAll_encodeAll ht.order
  have h₄ := (Codec.word 8).decodeAll_encodeAll (fits_offsets lz4 hs ht)
  have h₅ := PageInfo.codec.decodeAll_encodeAll (fits_infos ht) []
  rw [hs.tables] at h₁
  rw [hs.records] at h₂
  rw [hs.order] at h₃
  rw [hoffsets] at h₄
  rw [hinfos, List.append_nil] at h₅
  -- each table starts where the one before it ends
  have hdrop₁ : ∀ rest, (TableDataInfo.codec.encodeAll s.m_tableInfo ++ rest).drop
      (s.head.m_tableCount * TableDataInfo.codec.size) = rest := fun rest =>
    List.drop_left' (by rw [Codec.length_encodeAll, hs.tables])
  have hdrop₂ : ∀ rest, (RecordGeneralInfo.codec.encodeAll s.m_recordInfos ++ rest).drop
      (s.head.m_recordCount * RecordGeneralInfo.codec.size) = rest := fun rest =>
    List.drop_left' (by rw [Codec.length_encodeAll, hs.records])
  have hdrop₃ : ∀ rest, ((Codec.word 4).encodeAll s.m_recordIdOrderyTable ++ rest).drop
      (s.head.m_recordCount * (Codec.word 4).size) = rest := fun rest =>
    List.drop_left' (by rw [Codec.length_encodeAll, hs.order])
  have hdrop₄ : ∀ rest, ((Codec.word 8).encodeAll (s.laidOut lz4 true).pageOffsets ++ rest).drop
      ((s.head.m_pageCount + 1) * (Codec.word 8).size) = rest := fun rest =>
    List.drop_left' (by rw [Codec.length_encodeAll, hoffsets])
  have hfp : (s.laidOut lz4 true).firstPage = TableDataInfo.codec.encodeAll s.m_tableInfo ++
      (RecordGeneralInfo.codec.encodeAll s.m_recordInfos ++
        ((Codec.word 4).encodeAll s.m_recordIdOrderyTable ++
          ((Codec.word 8).encodeAll (s.laidOut lz4 true).pageOffsets ++
            PageInfo.codec.encodeAll (s.pages.map fun p => (p.written true).info)))) := rfl
  have hhead : (s.fileHead lz4 pos).m_tableCount = s.head.m_tableCount ∧
      (s.fileHead lz4 pos).m_recordCount = s.head.m_recordCount ∧
      (s.fileHead lz4 pos).m_pageCount = s.head.m_pageCount := ⟨rfl, rfl, rfl⟩
  unfold parseFirstPage
  simp only [hhead.1, hhead.2.1, hhead.2.2, hfp, hdrop₁, hdrop₂, hdrop₃, hdrop₄, h₁, h₂, h₃, h₄,
    h₅, List.map_map]
  rfl

theorem tablesSize_fileHead (hs : s.Shaped) (pos : Nat) :
    tablesSize (s.fileHead lz4 pos) = (s.laidOut lz4 true).firstPage.length := by
  have hinfos : s.pageInfo.length = s.head.m_pageCount := by rw [hs.infos, List.length_map, hs.count]
  rw [length_firstPage_laidOut _ _ hs, length_firstPage, hs.tables, hs.records, hs.order, hs.offsets,
    hinfos]
  show s.head.m_tableCount * 20 + s.head.m_recordCount * 25 + s.head.m_recordCount * 4 +
    (s.head.m_pageCount + 1) * 8 + s.head.m_pageCount * 40 = _
  omega

theorem read_firstPage (f : DiskImage) (d : List UInt8) (h : BlockHead) :
    ((f.write headSize d).write 0 (BlockHead.codec.encode h)).read headSize d.length = some d := by
  apply DiskImage.read_of_agree DiskImage.length_le_write _ DiskImage.read_write_self
  intro i _
  apply DiskImage.byte_write_ge
  rw [BlockHead.codec.length_encode]
  show 0 + 102 ≤ 102 + i
  omega

theorem reload_fileImage (hs : s.Shaped) (ht : s.Typed) (pos : Nat)
    (hsmall : s.firstPage.length ≤ LZ4_MAX_INPUT_SIZE) :
    reload lz4 (s.fileImage lz4 pos) s.head.m_blockID = .ok (some (s.loaded lz4 pos)) := by
  have hlen := length_firstPage_laidOut lz4 true hs
  have hsmall' : (s.laidOut lz4 true).firstPage.length ≤ LZ4_MAX_INPUT_SIZE := by omega
  have hbound := lz4.length_compress _ hsmall'
  have hbound₃₂ : LZ4_COMPRESSBOUND (s.laidOut lz4 true).firstPage.length < 2 ^ 32 :=
    compressBound_lt
  have hraw : (s.fileHead lz4 pos).m_solidBlockHeadPageRawSize =
      (s.laidOut lz4 true).firstPage.length := by
    unfold LZ4_MAX_INPUT_SIZE at hsmall'
    exact Nat.mod_eq_of_lt (by omega)
  have hsize : (s.fileHead lz4 pos).m_solidBlockHeadPageSize =
      (lz4.compress (s.laidOut lz4 true).firstPage).length := by
    exact Nat.mod_eq_of_lt (by omega)
  have hread : (s.fileImage lz4 pos).read headSize
      (lz4.compress (s.laidOut lz4 true).firstPage).length =
        some (lz4.compress (s.laidOut lz4 true).firstPage) := read_firstPage _ _ _
  have hpage : loadPage lz4 (s.fileImage lz4 pos) 0 (s.fileHead lz4 pos).m_solidBlockHeadPageRawSize
      (s.fileHead lz4 pos).m_solidBlockHeadPageSize headSize =
        .ok (some (s.laidOut lz4 true).firstPage) := by
    unfold loadPage unpack
    rw [hsize, hread, hraw]
    simp only [ne_eq, not_true_eq_false, if_false]
    rw [if_neg (by omega), lz4.decompress_compress _ hsmall']
  have hhead : loadFromFile (s.fileImage lz4 pos) s.head.m_blockID = some (s.fileHead lz4 pos) :=
    (s.laidOut lz4 true).loadFromFile_written _ ht.head _ _ _
  unfold reload
  rw [hhead]
  unfold loadFirstPage
  simp only
  rw [hpage, Exec.ok_bind]
  simp only
  rw [tablesSize_fileHead hs, hraw, if_neg (by omega), if_neg (by omega),
    parseFirstPage_laidOut hs ht]
  rfl

end SolidBlock

end DBStream.Native
