import DBStream.Spec.SolidImage

/-!
# The file of a solid block reads back

With compression every page that is not too large for LZ4 is read back, whatever the order of
the calls (`Serves.runCalls`).  Without compression the first page is handed to LZ4 all the same
(`not_roundTrips_raw`).  `solidFile_roundTrips_iff` puts the parts together.
-/

namespace DBStream.Native

variable {I : IndexImpl} {lz4 : Lz4} {io : FileIo}

namespace SolidBlock

variable {s : SolidBlock}

/-! ## Pages -/

theorem stored_fileImage (lz4 : Lz4) (hs : s.Shaped) (hsmall : s.firstPage.length ≤ LZ4_MAX_INPUT_SIZE)
    (pos : Nat) {i : Nat} {p : SolidPage} (hp : s.pages[i]? = some p) :
    ∃ a, (s.laidOut lz4 true).pageOffsets[i]? = some a ∧
      (s.laidOut lz4 true).pageOffsets[i + 1]? = some (align a + storedSize lz4 true p.bytes) ∧
      Stored lz4 (s.fileImage lz4 pos) (align a) p.bytes := by
  have hd : (s.pages.map SolidPage.bytes)[i]? = some p.bytes := by simp [hp]
  obtain ⟨a, ha, hend, hle, hstored⟩ :=
    stored_imageOf lz4 s.pagesStart .empty (fun _ _ => rfl) hd
  refine ⟨a, ha, hend, ?_⟩
  -- head and first page end in front of the first page behind them
  have hlen := length_firstPage_laidOut lz4 true hs
  have hbound := lz4.length_compress (s.laidOut lz4 true).firstPage (by omega)
  have hstart := le_align (headSize + LZ4_COMPRESSBOUND s.firstPage.length)
  have halign := le_align a
  rw [hlen] at hbound
  change headSize + LZ4_COMPRESSBOUND s.firstPage.length ≤ s.pagesStart at hstart
  apply hstored.of_agree
  · exact DiskImage.length_le_write.trans DiskImage.length_le_write
  · intro j _
    have hhead : 0 + (BlockHead.codec.encode (s.fileHead lz4 pos)).length ≤ align a + j := by
      rw [BlockHead.codec.length_encode]
      show 0 + headSize ≤ align a + j
      omega
    unfold fileImage
    rw [DiskImage.byte_write_ge hhead, DiskImage.byte_write_ge (by omega)]

/-- The block stands for `s`: the same offsets and page infos, and pages that are not loaded or have
    the bytes of `s`. -/
structure Serves (lz4 : Lz4) (s b : SolidBlock) : Prop where
  offsets : b.pageOffsets = (s.laidOut lz4 true).pageOffsets
  pages : ∀ (i : Nat) (p : SolidPage), s.pages[i]? = some p → ∃ q : SolidPage,
    b.pages[i]? = some q ∧ q.info = (p.written true).info ∧
      (q.pageData = none ∨ q.pageData = some p.bytes)

theorem serves_loaded (lz4 : Lz4) (s : SolidBlock) (pos : Nat) : Serves lz4 s (s.loaded lz4 pos) where
  offsets := rfl
  pages := by
    intro i p hp
    exact ⟨{ info := (p.written true).info, pageData := none }, by simp [loaded, hp], rfl, Or.inl rfl⟩

variable {b : SolidBlock}

theorem Serves.setPageData (h : Serves lz4 s b) (i : Nat) {data : Option (List UInt8)}
    (hdata : ∀ p, s.pages[i]? = some p → data = none ∨ data = some p.bytes) :
    Serves lz4 s (b.setPageData i data) where
  offsets := h.offsets
  pages := by
    intro j p hp
    obtain ⟨q, hq, hinfo, hold⟩ := h.pages j p hp
    by_cases hij : i = j
    · subst hij
      exact ⟨{ q with pageData := data }, by simp [SolidBlock.setPageData, hq], hinfo, hdata p hp⟩
    · exact ⟨q, by simp [SolidBlock.setPageData, hij, hq], hinfo, hold⟩

theorem Serves.pageFromFile (h : Serves lz4 s b) (hs : s.Shaped)
    (hsmall : s.firstPage.length ≤ LZ4_MAX_INPUT_SIZE) (pos : Nat) {i : Nat} {p : SolidPage}
    (hp : s.pages[i]? = some p) :
    ∃ off, Stored lz4 (s.fileImage lz4 pos) off p.bytes ∧
      pageFromFile lz4 (s.fileImage lz4 pos) b i = loadPage lz4 (s.fileImage lz4 pos) 0
        p.bytes.length (storedSize lz4 true p.bytes) off := by
  obtain ⟨a, ha, hend, hstored⟩ := stored_fileImage lz4 hs hsmall pos hp
  obtain ⟨q, hq, hinfo, -⟩ := h.pages i p hp
  obtain ⟨-, d, hd, hused⟩ := hs.pages i p hp
  have hbytes : p.bytes = d := by simp [SolidPage.bytes, hd]
  have hcrc : q.info.crc = 0 := by rw [hinfo]; rfl
  have hsize : q.info.pageUsedSize = p.bytes.length := by
    rw [hinfo, hbytes, ← hused]
    rfl
  refine ⟨align a, hstored, ?_⟩
  unfold SolidBlock.pageFromFile
  rw [hq, h.offsets, ha, hend]
  simp only [hcrc, hsize, Nat.add_sub_cancel_left]

private theorem loadPage_small {f : DiskImage} {off : Nat} {d : List UInt8} (h : Stored lz4 f off d)
    (hd : d.length ≤ LZ4_MAX_INPUT_SIZE) :
    loadPage lz4 f 0 d.length (storedSize lz4 true d) off = .ok (some d) := by
  unfold Stored at h
  rw [if_pos hd] at h
  unfold loadPage unpack
  rw [h]
  simp only [ne_eq, not_true_eq_false, if_false]
  rw [if_neg (by omega), lz4.decompress_compress d hd]

theorem loadPage_large {f : DiskImage} {off : Nat} {d : List UInt8} (h : Stored lz4 f off d)
    (hd : LZ4_MAX_INPUT_SIZE < d.length) (x : List UInt8) :
    loadPage lz4 f 0 d.length (storedSize lz4 true d) off ≠ .ok (some x) := by
  unfold Stored at h
  rw [if_neg (by omega)] at h
  unfold loadPage
  cases DiskImage.read_of_zero h with
  | inl hnone =>
    rw [hnone]
    simp
  | inr hzeros =>
    rw [hzeros]
    simp only [ne_eq, not_true_eq_false, if_false]
    unfold unpack
    rw [if_pos hd]
    -- the first entry of the size array is zero
    have hcount : 0 < (d.length + LZ4_MAX_INPUT_SIZE - 1) / LZ4_MAX_INPUT_SIZE := by
      unfold LZ4_MAX_INPUT_SIZE at *
      omega
    obtain ⟨n, hn⟩ := Nat.exists_eq_succ_of_ne_zero (Nat.ne_of_gt hcount)
    simp only [hn, Nat.succ_eq_add_one, List.range_succ_eq_map]
    unfold unpackChunks
    have hzero : LE.nat ((List.replicate (storedSize lz4 true d) (0 : UInt8)).slice (0 * 4) 4) = 0 := by
      simp only [List.slice, Nat.zero_mul, List.drop_zero, List.take_replicate]
      generalize min 4 (storedSize lz4 true d) = k
      induction k with
      | zero => rfl
      | succ k ih => simp [List.replicate_succ, ih]
    simp only [hzero, List.take_zero, lz4.decompress_nil]
    split
    · simp
    · simp

/-! ## The round trip -/

/-- The bytes that the `getPage` calls should return. -/
def answersOf (s : SolidBlock) : List PageCall → List (Option (List UInt8))
  | [] => []
  | .get i :: calls => s.pages[i]?.bind SolidPage.pageData :: answersOf s calls
  | .free _ :: calls => answersOf s calls

/-- The block `t` that was read has the tables, record infos and page infos of the block in memory,
    and calls of `getPage` in any order give the bytes of its pages. -/
structure ReadsBack (lz4 : Lz4) (s written : SolidBlock) (f : DiskImage) (t : SolidBlock) :
    Prop where
  tables : t.m_tableInfo = s.m_tableInfo
  records : t.m_recordInfos = s.m_recordInfos
  order : t.m_recordIdOrderyTable = s.m_recordIdOrderyTable
  offsets : t.pageOffsets = written.pageOffsets
  infos : t.pages.map SolidPage.info = written.pages.map SolidPage.info
  pages : ∀ calls : List PageCall, (∀ i, .get i ∈ calls → i < s.head.m_pageCount) →
    ∃ t', runCalls lz4 f calls t = .ok (answersOf s calls, t')

/-- The block is written, and what is read from the file is the block. -/
def RoundTrips (lz4 : Lz4) (io : FileIo) (s : SolidBlock) : Prop :=
  ∃ written f t, s.writeToFile lz4 io = .ok (some (written, some f)) ∧
    reload lz4 f s.head.m_blockID = .ok (some t) ∧ ReadsBack lz4 s written f t

/-- Whatever pages are asked for, and in which order, the answers are those of the block. -/
theorem Serves.runCalls (h : Serves lz4 s b) (hs : s.Shaped)
    (hfirst : s.firstPage.length ≤ LZ4_MAX_INPUT_SIZE)
    (hsmall : ∀ p ∈ s.pages, p.info.pageUsedSize ≤ LZ4_MAX_INPUT_SIZE) (pos : Nat)
    {calls : List PageCall} (hcalls : ∀ i, .get i ∈ calls → i < s.head.m_pageCount) :
    ∃ b', runCalls lz4 (s.fileImage lz4 pos) calls b = .ok (answersOf s calls, b') := by
  induction calls generalizing b with
  | nil => exact ⟨b, rfl⟩
  | cons call calls ih =>
    have hrest : ∀ i, .get i ∈ calls → i < s.head.m_pageCount := fun i hi =>
      hcalls i (List.mem_cons_of_mem call hi)
    cases call with
    | free i =>
      have hnone : Serves lz4 s (b.setPageData i none) := h.setPageData i fun _ _ => Or.inl rfl
      exact ih hnone hrest
    | get i =>
      have hi := hcalls i (List.mem_cons_self ..)
      rw [← hs.count] at hi
      obtain ⟨p, hp⟩ : ∃ p, s.pages[i]? = some p := ⟨_, List.getElem?_eq_getElem hi⟩
      obtain ⟨-, d, hd, hused⟩ := hs.pages i p hp
      have hbytes : p.bytes = d := by simp [SolidPage.bytes, hd]
      have hp_small : p.bytes.length ≤ LZ4_MAX_INPUT_SIZE := by
        rw [hbytes, ← hused]
        exact hsmall p (List.mem_of_getElem? hp)
      -- the page is in memory with these bytes, or it is read
      have hget : b.getPage (SolidBlock.pageFromFile lz4 (s.fileImage lz4 pos)) i =
          .ok (some p.bytes) := by
        obtain ⟨q, hq, -, hdata⟩ := h.pages i p hp
        unfold SolidBlock.getPage
        rw [hq]
        cases hdata with
        | inl hnone =>
          obtain ⟨off, hstored, hload⟩ := h.pageFromFile hs hfirst pos hp
          simp only [hnone]
          rw [hload, loadPage_small hstored hp_small]
        | inr hsome => simp only [hsome]
      have hkeep : Serves lz4 s (b.setPageData i (some p.bytes)) := by
        apply h.setPageData i
        intro p' hp'
        rw [hp] at hp'
        cases hp'
        exact Or.inr rfl
      obtain ⟨b', hb'⟩ := ih hkeep hrest
      refine ⟨b', ?_⟩
      unfold SolidBlock.runCalls
      rw [hget]
      rw [hbytes] at hb'
      simp only [Exec.ok_bind, Option.isSome_some, if_true, hb', answersOf, hp, Option.bind_some,
        hd, hbytes]
      rfl

private theorem roundTrips_compressed (hs : s.Shaped) (ht : s.Typed) (hio : io.Works)
    (hflush : s.head.m_flag.flushed = false) (hcompress : s.head.m_flag.compress = true)
    (hbuf : s.EmptyInBuffer) (hfirst : s.firstPage.length ≤ LZ4_MAX_INPUT_SIZE)
    (hsmall : ∀ p ∈ s.pages, p.info.pageUsedSize ≤ LZ4_MAX_INPUT_SIZE) :
    RoundTrips lz4 io s := by
  obtain ⟨pos, head, hwrite⟩ :=
    writeToFile_compressed lz4 hs hio hflush hcompress hbuf hfirst
  refine ⟨_, _, _, hwrite, reload_fileImage hs ht pos hfirst, rfl, rfl, rfl, rfl, ?_, ?_⟩
  · simp only [loaded, laidOut, List.map_map]
    rfl
  · intro calls hcalls
    exact (serves_loaded lz4 s pos).runCalls hs hfirst hsmall pos hcalls

theorem small_of_roundTrips (hs : s.Shaped) (ht : s.Typed) (hio : io.Works)
    (hflush : s.head.m_flag.flushed = false) (hcompress : s.head.m_flag.compress = true)
    (hbuf : s.EmptyInBuffer) (hfirst : s.firstPage.length ≤ LZ4_MAX_INPUT_SIZE)
    (h : RoundTrips lz4 io s) : ∀ p ∈ s.pages, p.info.pageUsedSize ≤ LZ4_MAX_INPUT_SIZE := by
  obtain ⟨pos, head, hwrite⟩ :=
    writeToFile_compressed lz4 hs hio hflush hcompress hbuf hfirst
  obtain ⟨written, f, t, hwrite', hload, hback⟩ := h
  rw [hwrite] at hwrite'
  cases hwrite'
  rw [reload_fileImage hs ht pos hfirst] at hload
  cases hload
  intro p hmem
  obtain ⟨i, hp⟩ := List.getElem?_of_mem hmem
  obtain ⟨-, d, hd, hused⟩ := hs.pages i p hp
  have hbytes : p.bytes = d := by simp [SolidPage.bytes, hd]
  by_contra hlarge
  have hi : i < s.head.m_pageCount := by
    rw [← hs.count]
    exact (List.getElem?_eq_some_iff.mp hp).1
  obtain ⟨t', hcalls⟩ := hback.pages [.get i] (by simpa using hi)
  obtain ⟨x, hget, hcalls⟩ := Exec.of_bind hcalls
  have hx : x = some d := by
    have hanswers := congrArg Prod.fst (Except.ok.inj hcalls)
    simp only [answersOf, hp, Option.bind_some, hd, List.cons.injEq] at hanswers
    exact hanswers.1
  obtain ⟨off, hstored, hread⟩ := (serves_loaded lz4 s pos).pageFromFile hs hfirst pos hp
  have hpage : (s.loaded lz4 pos).pages[i]? =
      some { info := (p.written true).info, pageData := none } := by simp [loaded, hp]
  unfold getPage at hget
  rw [hpage] at hget
  rw [hread, hx] at hget
  exact loadPage_large hstored (by rw [hbytes, ← hused]; omega) d hget

/-! ## Without compression -/

private theorem zeros_then {d : List UInt8} (h : ∃ x ∈ d, x ≠ 0) :
    ∃ m x rest, d = List.replicate m 0 ++ x :: rest ∧ x ≠ 0 := by
  induction d with
  | nil => simp at h
  | cons y d ih =>
    by_cases hy : y = 0
    · have hd : ∃ x ∈ d, x ≠ 0 := by
        obtain ⟨x, hx, hne⟩ := h
        cases List.mem_cons.mp hx with
        | inl heq => exact absurd (heq.trans hy) hne
        | inr hmem => exact ⟨x, hmem, hne⟩
      obtain ⟨m, x, rest, hd, hne⟩ := ih hd
      exact ⟨m + 1, x, rest, by rw [hd, hy, List.replicate_succ, List.cons_append], hne⟩
    · exact ⟨0, y, d, rfl, hy⟩

theorem not_unpacked_to_itself {p d out : List UInt8} {n : Nat}
    (hp : ∃ rest, p = List.replicate 20 0 ++ rest ∧ ∃ x ∈ rest, x ≠ 0) (hd : p <+: d)
    (hout : lz4.decompress d n = some out) : ¬ p <+: out := by
  obtain ⟨rest, rfl, hne⟩ := hp
  obtain ⟨m, x, tail, rfl, hx⟩ := zeros_then hne
  -- `20 + m` zeros of the source give more than `20 + m` zeros
  have hzeros : List.replicate 20 0 ++ (List.replicate m (0 : UInt8) ++ x :: tail) =
      List.replicate (20 + m) 0 ++ x :: tail := by
    rw [← List.append_assoc, List.replicate_append_replicate]
  rw [hzeros] at hd ⊢
  intro hprefix
  have hsource : List.replicate (3 * ((18 + m) / 3) + 2) 0 <+: d := by
    have hle : List.replicate (3 * ((18 + m) / 3) + 2) (0 : UInt8) <+: List.replicate (20 + m) 0 := by
      rw [List.prefix_iff_eq_take, List.length_replicate, List.take_replicate]
      congr 1
      omega
    exact hle.trans ((List.prefix_append _ _).trans hd)
  have hmany := lz4.decompress_zeros _ d n out hsource hout
  -- so the byte behind them is zero in the result
  obtain ⟨r₁, hr₁⟩ := hprefix
  obtain ⟨r₂, hr₂⟩ := hmany
  have hx₁ : out[20 + m]? = some x := by
    rw [← hr₁, List.append_assoc, List.getElem?_append_right (by simp)]
    simp
  have hx₂ : out[20 + m]? = some 0 := by
    rw [← hr₂, List.getElem?_append_left (by simp; omega), List.getElem?_replicate, if_pos (by omega)]
  rw [hx₁] at hx₂
  exact hx (Option.some.inj hx₂)

theorem canonical_tableDataInfo : TableDataInfo.codec.Canonical := by
  apply Codec.canonical_ofWords
  intro ws hws
  match ws, hws with
  | [_, _, _, _, _], _ => rfl

theorem canonical_recordGeneralInfo : RecordGeneralInfo.codec.Canonical := by
  apply Codec.canonical_ofWords
  intro ws hws
  match ws, hws with
  | [_, _, _, _, _], _ => rfl

/-- The bytes of the first page in front of the page infos. -/
def tableBytes (s : SolidBlock) : List UInt8 :=
  TableDataInfo.codec.encodeAll s.m_tableInfo ++
    (RecordGeneralInfo.codec.encodeAll s.m_recordInfos ++
      ((Codec.word 4).encodeAll s.m_recordIdOrderyTable ++ (Codec.word 8).encodeAll s.pageOffsets))

theorem tableBytes_prefix_firstPage (s : SolidBlock) : s.tableBytes <+: s.firstPage :=
  ⟨PageInfo.codec.encodeAll s.pageInfo, by simp only [tableBytes, firstPage, List.append_assoc]⟩

private theorem take_append_prefix {d p : List UInt8} {n : Nat} (h : p <+: d.drop n) :
    d.take n ++ p <+: d := by
  obtain ⟨rest, hrest⟩ := h
  exact ⟨rest, by rw [List.append_assoc, hrest, List.take_append_drop]⟩

theorem tableBytes_parseFirstPage {h : BlockHead} {d : List UInt8}
    (hlen : tablesSize h ≤ d.length) : (parseFirstPage h d).tableBytes <+: d := by
  unfold tablesSize at hlen
  unfold tableBytes parseFirstPage
  rw [Codec.encodeAll_decodeAll canonical_tableDataInfo (by omega),
    Codec.encodeAll_decodeAll canonical_recordGeneralInfo (by rw [List.length_drop]; omega),
    Codec.encodeAll_decodeAll (Codec.canonical_word 4) (by simp only [List.length_drop]; omega),
    Codec.encodeAll_decodeAll (Codec.canonical_word 8) (by simp only [List.length_drop]; omega)]
  apply take_append_prefix
  apply take_append_prefix
  apply take_append_prefix
  exact List.take_prefix _ _

theorem setFirstCrc_fields {crc : Nat} (h : s.setFirstCrc crc = .ok b) :
    ∃ infos, b = { s with pageInfo := infos } ∧ infos.length = s.pageInfo.length := by
  unfold setFirstCrc at h
  split at h
  · rename_i info infos hinfo
    cases h
    exact ⟨_, rfl, by rw [hinfo]; rfl⟩
  · split at h
    · cases h
      exact ⟨_, rfl, rfl⟩
    · cases h

theorem exists_ne_zero_of_nat {d : List UInt8} (h : LE.nat d ≠ 0) : ∃ x ∈ d, x ≠ 0 := by
  induction d with
  | nil => exact absurd rfl h
  | cons x d ih =>
    by_cases hx : x = 0
    · have hd : LE.nat d ≠ 0 := by
        intro hzero
        exact h (by simp [hx, hzero])
      obtain ⟨y, hy, hne⟩ := ih hd
      exact ⟨y, List.mem_cons_of_mem x hy, hne⟩
    · exact ⟨x, List.mem_cons_self .., hx⟩

theorem tableBytes_laidOut {more : List TableDataInfo} (lz4 : Lz4) (compress : Bool)
    (hdefault : s.m_tableInfo = {} :: more) :
    ∃ rest, (s.laidOut lz4 compress).tableBytes = List.replicate 20 0 ++ rest ∧
      ∃ x ∈ rest, x ≠ 0 := by
  have hzero : TableDataInfo.codec.encode {} = List.replicate 20 0 := by decide
  have htables : TableDataInfo.codec.encodeAll (s.laidOut lz4 compress).m_tableInfo =
      List.replicate 20 0 ++ TableDataInfo.codec.encodeAll more := by
    show TableDataInfo.codec.encodeAll s.m_tableInfo = _
    rw [hdefault, ← hzero]
    rfl
  have hstart : 0 < s.pagesStart ∧ s.pagesStart < 256 ^ 8 := by
    have hle := le_align (headSize + LZ4_COMPRESSBOUND s.firstPage.length)
    have hge := align_le (headSize + LZ4_COMPRESSBOUND s.firstPage.length)
    have hbound : LZ4_COMPRESSBOUND s.firstPage.length < 2 ^ 32 := compressBound_lt
    unfold pagesStart headSize at *
    omega
  have hne : LE.nat (LE.bytes 8 s.pagesStart) ≠ 0 := by
    rw [LE.nat_bytes_of_lt hstart.2]
    omega
  obtain ⟨x, hx, hxne⟩ := exists_ne_zero_of_nat hne
  have hoffsets : ∃ tail, (Codec.word 8).encodeAll (s.laidOut lz4 compress).pageOffsets =
      LE.bytes 8 s.pagesStart ++ tail := by
    show ∃ tail, (Codec.word 8).encodeAll (offsetsOf lz4 compress _ s.pagesStart) = _
    cases s.pages.map SolidPage.bytes with
    | nil => exact ⟨[], rfl⟩
    | cons d ds => exact ⟨_, rfl⟩
  obtain ⟨tail, htail⟩ := hoffsets
  refine ⟨_, by rw [tableBytes, htables, List.append_assoc], x, ?_, hxne⟩
  rw [htail]
  simp [hx]

/-- Without compression the first page is handed to LZ4 all the same, which does not give it back. -/
theorem not_roundTrips_raw (hs : s.Shaped) (ht : s.Typed) (hio : io.Works)
    (hflush : s.head.m_flag.flushed = false) (hraw : s.head.m_flag.compress = false)
    (hfirst : s.firstPage.length ≤ LZ4_MAX_INPUT_SIZE) {more : List TableDataInfo}
    (hdefault : s.m_tableInfo = {} :: more) : ¬ RoundTrips lz4 io s := by
  rintro ⟨written, f, t, hwrite, hload, hback⟩
  obtain ⟨w, -, hpages⟩ := writeToFile_pages lz4 hs hio hflush
  rw [hraw] at hpages
  rw [hpages] at hwrite
  obtain ⟨b, hb, hwrite⟩ := Exec.of_bind hwrite
  obtain ⟨infos, hfields, hinfos⟩ := setFirstCrc_fields hb
  have hlen : b.firstPage.length = s.firstPage.length := by
    rw [← length_firstPage_laidOut lz4 false hs, length_firstPage, length_firstPage, ← hinfos,
      hfields]
  have hhead : b.head = s.head := by rw [hfields]; rfl
  have hdata : writeData lz4 false w.image b.firstPage headSize =
      (b.firstPage.length, w.image.write headSize b.firstPage) := rfl
  rw [hdata] at hwrite
  cases hwrite
  -- the head is read back
  have hfits : BlockHead.codec.Fits b.head := by
    rw [hhead]
    exact ht.head
  unfold reload at hload
  rw [← hhead, loadFromFile_written _ hfits] at hload
  obtain ⟨o, hpage, hload⟩ := Exec.of_bind hload
  -- the first page is handed to LZ4
  have hraw₃₂ : b.firstPage.length % 2 ^ 32 = b.firstPage.length := by
    unfold LZ4_MAX_INPUT_SIZE at hfirst
    exact Nat.mod_eq_of_lt (by omega)
  change loadPage lz4 _ 0 (b.firstPage.length % 2 ^ 32) (b.firstPage.length % 2 ^ 32)
    headSize = .ok o at hpage
  unfold loadPage unpack at hpage
  rw [hraw₃₂, read_firstPage] at hpage
  simp only [ne_eq, not_true_eq_false, if_false] at hpage
  rw [if_neg (by omega)] at hpage
  cases hout : lz4.decompress b.firstPage b.firstPage.length with
  | none =>
    rw [hout] at hpage
    cases hpage
    cases hload
  | some out =>
    rw [hout] at hpage
    cases hpage
    simp only at hload
    split at hload
    · cases hload
    · split at hload
      · cases hload
      · rename_i hlong
        cases hload
        -- the tables are the same, so the bytes in front of the page infos are
        have hout_prefix := tableBytes_parseFirstPage (Nat.le_of_not_lt hlong)
        have hsame : (parseFirstPage (b.writtenHead b.firstPage.length (headSize +
            (s.pages.map fun p => p.info.pageUsedSize).sum + b.firstPage.length) w.pos)
            out).tableBytes = (s.laidOut lz4 false).tableBytes := by
          unfold tableBytes
          rw [hback.tables, hback.records, hback.order, hback.offsets, hfields]
          rfl
        have hin_prefix : (s.laidOut lz4 false).tableBytes <+: b.firstPage := by
          have hbytes : b.tableBytes = (s.laidOut lz4 false).tableBytes := by rw [hfields]; rfl
          rw [← hbytes]
          exact tableBytes_prefix_firstPage b
        rw [hsame] at hout_prefix
        exact not_unpacked_to_itself (tableBytes_laidOut lz4 false hdefault) hin_prefix hout
          hout_prefix

end SolidBlock

/-! ## Blocks that were filled by a run -/

namespace AppendingBlock

variable {Γ : MetaDataCollection I} {b : AppendingBlock I} {acc : List Record}

theorem default_first {Q : Nat → Nat → Prop} (hl : Layout Γ b) (hc : Contents Γ Q b acc) :
    ∃ t es, b.m_tableDatas.entries = (0, t) :: es ∧ tableInfoOf t 0 0 = {} := by
  obtain ⟨t, ht⟩ := hl.default
  have hmem : (0, t) ∈ b.m_tableDatas.entries := b.m_tableDatas.mem_entries.mpr ht
  have hrows : t.recordIds = [] := by
    rw [hc.recordIds 0 t ht]
    apply List.eq_nil_iff_forall_not_mem.mpr
    intro i hi
    obtain ⟨r, -, hr⟩ := mem_rowsOf.mp hi
    obtain ⟨m, hm, hid⟩ := Option.map_eq_some_iff.mp hr
    exact Γ.metaOf_id_ne_zero hm hid
  have hinfo : tableInfoOf t 0 0 = {} := by
    unfold tableInfoOf
    rw [(hl.table 0 t ht).key, hrows]
    rfl
  have hsorted := b.m_tableDatas.sorted
  cases hentries : b.m_tableDatas.entries with
  | nil =>
    rw [hentries] at hmem
    cases hmem
  | cons e es =>
    rw [hentries] at hmem hsorted
    cases List.mem_cons.mp hmem with
    | inl heq =>
      rw [← heq]
      exact ⟨t, es, rfl, hinfo⟩
    | inr htail =>
      -- no key is smaller than `0`
      have hlt := (List.pairwise_cons.mp hsorted).1 _ htail
      exact absurd hlt (Nat.not_lt_zero _)

/-- The file of a solid block reads back exactly if the block is compressed, no page is too large for
    LZ4, and a block without pages has room behind its first page. -/
theorem solidFile_roundTrips_iff (lz4 : Lz4) (io : FileIo) (hio : io.Works)
    (Γ : MetaDataCollection I) (blockId : Nat) (flag : BlockFlag) (bufSize : Nat)
    (flushSize flushPeriod : Int) (startID : Nat) {b : AppendingBlock I} {acc : List Record}
    (hrun : Run Γ (fun _ _ _ => True) (create blockId flag bufSize flushSize flushPeriod startID) b
      acc)
    (s : SolidBlock) (hs : b.toSolidBlock = .ok s) (ht : s.Typed)
    (hflush : s.head.m_flag.flushed = false) :
    s.RoundTrips lz4 io ↔ s.head.m_flag.compress = true ∧
      (∀ p ∈ s.pages, p.info.pageUsedSize ≤ LZ4_MAX_INPUT_SIZE) ∧ s.EmptyInBuffer := by
  have hl₀ := layout_create Γ blockId flag bufSize flushSize flushPeriod startID
  have hl := hrun.layout hl₀
  have hc := hrun.contents hl₀ (contents_create Γ (fun _ _ => True) blockId flag bufSize flushSize
    flushPeriod startID) fun b op _ => by cases op <;> trivial
  obtain ⟨hshape, hfirst⟩ := toSolidBlock_shaped hs
  have hrecords : s.head.m_recordCount ≤ maxRecordInBlock := by
    rw [toSolidBlock_head hs]
    exact hrun.recordCount_le (Nat.zero_le _)
  have hsmall := SolidBlock.firstPage_small hshape ht hrecords
  by_cases hcompress : s.head.m_flag.compress = true
  · by_cases hbuf : s.EmptyInBuffer
    · constructor
      · intro h
        exact ⟨hcompress,
          SolidBlock.small_of_roundTrips hshape ht hio hflush hcompress hbuf hsmall h, hbuf⟩
      · intro ⟨_, hpages, _⟩
        exact SolidBlock.roundTrips_compressed hshape ht hio hflush hcompress hbuf hsmall hpages
    · constructor
      · -- the first page cannot be written
        rintro ⟨written, f, t, hwrite, -⟩
        obtain ⟨w, -, hpages⟩ := SolidBlock.writeToFile_pages lz4 hshape hio hflush
        rw [hpages, SolidBlock.setFirstCrc_overrun hshape hbuf] at hwrite
        cases hwrite
      · intro ⟨_, _, hbuf'⟩
        exact absurd hbuf' hbuf
  · have hraw : s.head.m_flag.compress = false := by simpa using hcompress
    obtain ⟨t, es, hentries, hdefault⟩ := default_first hl hc
    obtain ⟨more, hmore⟩ := hfirst (0, t) es hentries
    rw [hdefault] at hmore
    constructor
    · intro h
      exact absurd h (SolidBlock.not_roundTrips_raw hshape ht hio hflush hraw hsmall hmore)
    · intro ⟨h, _, _⟩
      exact absurd h hcompress

end AppendingBlock

/-! ## The LZ4 block format -/

namespace Lz4Block

/-- The bytes behind a length of `15`: each `255` goes on. -/
def readMore : Nat → List UInt8 → Option (Nat × List UInt8)
  | _, [] => none
  | n, x :: src => if x = 255 then readMore (n + 255) src else some (n + x.toNat, src)

/-- A length that starts in four bits of the token. -/
def readLength (n : Nat) (src : List UInt8) : Option (Nat × List UInt8) :=
  if n < 15 then some (n, src) else readMore 15 src

/-- Copy `n` bytes from `offset` bytes back. -/
def copyMatch (offset : Nat) : Nat → List UInt8 → List UInt8
  | 0, out => out
  | n + 1, out => copyMatch offset n (out ++ [out.getD (out.length - offset) 0])

/-- The sequences of a block: literals, and a match unless the block ends behind the literals.  A zero
    offset is not valid. -/
def decode : Nat → List UInt8 → List UInt8 → Nat → Option (List UInt8)
  | 0, _, _, _ => none
  | _ + 1, [], _, _ => none
  | fuel + 1, token :: src, out, cap =>
    match readLength (token.toNat / 16) src with
    | none => none
    | some (lit, src) =>
      if src.length < lit ∨ cap < out.length + lit then none
      else
        match src.drop lit with
        | [] => some (out ++ src.take lit)
        | [_] => none
        | lo :: hi :: rest =>
          match readLength (token.toNat % 16) rest with
          | none => none
          | some (len, rest) =>
            let offset := lo.toNat + 256 * hi.toNat
            let out := out ++ src.take lit
            if offset = 0 ∨ out.length < offset ∨ cap < out.length + len + 4 then none
            else decode fuel rest (copyMatch offset (len + 4) out) cap

def literals (d : List UInt8) : List UInt8 :=
  if d.length < 15 then UInt8.ofNat (16 * d.length) :: d
  else 240 :: (List.replicate ((d.length - 15) / 255) 255 ++
    UInt8.ofNat ((d.length - 15) % 255) :: d)

theorem readMore_replicate (n q r : Nat) (hr : r < 255) (src : List UInt8) :
    readMore n (List.replicate q 255 ++ UInt8.ofNat r :: src) = some (n + 255 * q + r, src) := by
  induction q generalizing n with
  | zero =>
    have hne : UInt8.ofNat r ≠ 255 := by
      intro h
      have hnat := congrArg UInt8.toNat h
      change r % 256 = 255 at hnat
      omega
    have hr' : (UInt8.ofNat r).toNat = r := by
      simp only [UInt8.toNat_ofNat']
      omega
    rw [List.replicate_zero, List.nil_append, readMore, if_neg hne, hr', Nat.mul_zero,
      Nat.add_zero]
  | succ q ih =>
    rw [List.replicate_succ, List.cons_append, readMore, if_pos rfl, ih]
    congr 2
    omega

theorem decode_literals (d : List UInt8) (fuel : Nat) :
    decode (fuel + 1) (literals d) [] d.length = some d := by
  unfold literals
  split
  · rename_i hshort
    have htoken : (UInt8.ofNat (16 * d.length)).toNat / 16 = d.length := by
      simp only [UInt8.toNat_ofNat']
      omega
    unfold decode
    rw [htoken, readLength, if_pos hshort]
    simp
  · rename_i hlong
    have htoken : (240 : UInt8).toNat / 16 = 15 := by decide
    have hlen : 15 + 255 * ((d.length - 15) / 255) + (d.length - 15) % 255 = d.length := by
      omega
    unfold decode
    rw [htoken, readLength, if_neg (by omega),
      readMore_replicate 15 _ _ (Nat.mod_lt _ (by omega)) d, hlen]
    simp

theorem length_literals (d : List UInt8) : (literals d).length ≤ d.length + d.length / 255 + 16 := by
  unfold literals
  split
  · simp only [List.length_cons]
    omega
  · simp only [List.length_cons, List.length_append, List.length_replicate]
    omega

def literalLz4 : Lz4 where
  compress := literals
  decompress := fun d n => decode (d.length + 1) d [] n
  decompress_compress := fun d _ => decode_literals d _
  length_compress := by
    intro d hd
    rw [LZ4_COMPRESSBOUND, if_neg (by omega)]
    exact length_literals d
  decompress_nil := fun _ => rfl
  decompress_zeros := by
    intro k d n out hzeros hout
    cases k with
    | zero => exact List.nil_prefix
    | succ k =>
      -- the first sequence has a zero offset
      obtain ⟨rest, rfl⟩ := hzeros
      have hsplit : List.replicate (3 * (k + 1) + 2) (0 : UInt8) =
          0 :: 0 :: 0 :: List.replicate (3 * k + 2) 0 := by
        rw [show 3 * (k + 1) + 2 = 3 * k + 2 + 1 + 1 + 1 by omega, List.replicate_succ,
          List.replicate_succ, List.replicate_succ]
      rw [hsplit] at hout
      simp [decode, readLength] at hout

end Lz4Block

namespace SolidBlock

instance (x : BlockHead) : Decidable (BlockHead.codec.Fits x) :=
  inferInstanceAs (Decidable (List.Forall₂ _ _ _))

instance (x : TableDataInfo) : Decidable (TableDataInfo.codec.Fits x) :=
  inferInstanceAs (Decidable (List.Forall₂ _ _ _))

instance (x : RecordGeneralInfo) : Decidable (RecordGeneralInfo.codec.Fits x) :=
  inferInstanceAs (Decidable (List.Forall₂ _ _ _))

instance (x : PageInfo) : Decidable (PageInfo.codec.Fits x) :=
  inferInstanceAs (Decidable (List.Forall₂ _ _ _))

instance (w n : Nat) : Decidable ((Codec.word w).Fits n) := inferInstanceAs (Decidable (_ < _))

instance (s : SolidBlock) : Decidable s.Typed :=
  decidable_of_iff (BlockHead.codec.Fits s.head ∧ (∀ x ∈ s.m_tableInfo, TableDataInfo.codec.Fits x) ∧
      (∀ x ∈ s.m_recordInfos, RecordGeneralInfo.codec.Fits x) ∧
      (∀ x ∈ s.m_recordIdOrderyTable, (Codec.word 4).Fits x) ∧
      (∀ p ∈ s.pages, PageInfo.codec.Fits p.info) ∧ s.m_tableInfo.length < 2 ^ 16)
    ⟨fun ⟨h₁, h₂, h₃, h₄, h₅, h₆⟩ => ⟨h₁, h₂, h₃, h₄, h₅, h₆⟩,
      fun h => ⟨h.head, h.tables, h.records, h.order, h.pageInfo, h.tableCount⟩⟩

end SolidBlock

namespace AppendingBlock

def quietFile : FileIo where
  openFd := 3
  seekOk := true
  pageWritten := fun _ => true
  firstPageWritten := true
  headWritten := true
  synced := true
  renamed := true

theorem quietFile_works : quietFile.Works :=
  ⟨rfl, rfl, fun _ => rfl, rfl, rfl, rfl, rfl⟩

/-- A new block of 1 MB that is not compressed. -/
def rawBlock : AppendingBlock noIndex := create 1 { appending := true, compress := false } (2 ^ 20) 0 0 1

/-- A compressed block of 4 MB with rows of two tables in turn is read back. -/
theorem solidFile_roundTrips_iff_crossed : ∃ (b : AppendingBlock noIndex) (s : SolidBlock),
    Run twoTables (fun _ _ _ => True) (create 1 { appending := true, compress := true } (2 ^ 22) 0 0 1)
        b crossedRows ∧
      b.toSolidBlock = .ok s ∧ s.head.m_pageCount = 4 ∧
      s.RoundTrips Lz4Block.literalLz4 quietFile := by
  have hexec : (exec twoTables (fun _ _ _ => true) crossedOps
      (create 1 { appending := true, compress := true } (2 ^ 22) 0 0 1, []) >>= fun x =>
      x.1.toSolidBlock >>= fun s => .ok (x.2, decide s.Typed, s.head.m_flag.flushed,
        s.head.m_flag.compress, s.head.m_pageCount,
        decide (∀ p ∈ s.pages, p.info.pageUsedSize ≤ LZ4_MAX_INPUT_SIZE))) =
      .ok (crossedRows, true, false, true, 4, true) := by rfl
  obtain ⟨⟨b, acc⟩, hb, hsolid⟩ := Exec.of_bind hexec
  obtain ⟨s, hs, hret⟩ := Exec.of_bind hsolid
  simp only [Except.ok.injEq, Prod.mk.injEq, decide_eq_true_eq] at hret
  obtain ⟨rfl, htyped, hflush, hcompress, hcount, hsmall⟩ := hret
  have hrun : Run twoTables (fun _ _ _ => True)
      (create 1 { appending := true, compress := true } (2 ^ 22) 0 0 1) b crossedRows :=
    run_of_exec (fun _ _ _ _ _ => trivial) .nil hb
  refine ⟨b, s, hrun, hs, hcount, ?_⟩
  have hiff := solidFile_roundTrips_iff Lz4Block.literalLz4 quietFile quietFile_works twoTables 1
    { appending := true, compress := true } (2 ^ 22) 0 0 1 hrun s hs htyped hflush
  exact hiff.mpr ⟨hcompress, hsmall, Or.inl (by omega)⟩

/-- A block with one row that is not compressed: LZ4 rejects the first page when it is read. -/
theorem solidFile_raw_lost : ∃ (b : AppendingBlock noIndex) (s : SolidBlock),
    Run twoTables (fun _ _ _ => True) rawBlock b [sampleRow] ∧ b.toSolidBlock = .ok s ∧
      s.head.m_flag.compress = false ∧ s.Typed ∧
      ¬ s.RoundTrips Lz4Block.literalLz4 quietFile := by
  have hcall : (rawBlock.step twoTables (.append sampleRow quietIo) >>= fun x =>
      x.2.toSolidBlock >>= fun s => .ok (x.1, decide s.Typed, s.head.m_flag.flushed,
        s.head.m_flag.compress)) = .ok (.B_OK, true, false, false) := by rfl
  obtain ⟨⟨st, b⟩, hstep, hsolid⟩ := Exec.of_bind hcall
  obtain ⟨s, hs, hret⟩ := Exec.of_bind hsolid
  simp only [Except.ok.injEq, Prod.mk.injEq, decide_eq_true_eq] at hret
  obtain ⟨rfl, htyped, hflush, hraw⟩ := hret
  have hrun : Run twoTables (fun _ _ _ => True) rawBlock b [sampleRow] :=
    Run.snoc .nil trivial hstep
  refine ⟨b, s, hrun, hs, hraw, htyped, ?_⟩
  have hl₀ := layout_create twoTables 1 { appending := true, compress := false } (2 ^ 20) 0 0 1
  have hc := hrun.contents hl₀ (contents_create twoTables (fun _ _ => True) 1
    { appending := true, compress := false } (2 ^ 20) 0 0 1) fun b op _ => by cases op <;> trivial
  obtain ⟨hshape, hfirst⟩ := toSolidBlock_shaped hs
  have hrecords : s.head.m_recordCount ≤ maxRecordInBlock := by
    rw [toSolidBlock_head hs]
    exact hrun.recordCount_le (Nat.zero_le _)
  obtain ⟨t, es, hentries, hdefault⟩ := default_first (hrun.layout hl₀) hc
  obtain ⟨more, hmore⟩ := hfirst (0, t) es hentries
  rw [hdefault] at hmore
  exact SolidBlock.not_roundTrips_raw hshape htyped quietFile_works hflush hraw
    (SolidBlock.firstPage_small hshape htyped hrecords) hmore

end AppendingBlock

end DBStream.Native
