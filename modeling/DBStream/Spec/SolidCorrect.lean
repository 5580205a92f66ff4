import Mathlib.Data.List.Induction
import DBStream.Spec.PageAccounting

/-!
# Conversion to a solid block

`toSolidBlock` regroups the records by table.  `Converted` is the invariant of its loop:
the data pages seen so far are under their new ids, and the records seen so far are
described by their infos.  At the end every record on some table's list is described
(`toSolidBlock_spec`).  Row changes are on the list of their table, so blocks of row
changes are preserved (`toSolidBlock_preserves_rows`); other records are on no list and
keep a zeroed info (`toSolidBlock_loses_ddl`).
-/

namespace DBStream.Native

variable {I : IndexImpl}

namespace AppendingBlock

variable {Γ : MetaDataCollection I} {b b₁ b₂ b' : AppendingBlock I} {acc : List Record}

/-! ## Described records -/

/-- The page at the place `offset` names holds a copy of record `rid`. -/
def HoldsCopy (b : AppendingBlock I) (acc : List Record) (pages : List Page) (rid offset : Nat) :
    Prop :=
  ∃ r n off p pre post, acc[rid]? = some r ∧ offset = RecordPosition.set n off ∧
    RecordPosition.Fits n off ∧ pages[n]? = some p ∧ pre.length = off ∧
    p.pageData = pre ++ (r.stamped (b.m_minRecordId + rid) ++ post)

/-- The info of record `rid` has the record's type, times and table, and names a copy of it. -/
structure Describes (Γ : MetaDataCollection I) (b : AppendingBlock I) (acc : List Record)
    (pages : List Page) (rid : Nat) (info : RecordGeneralInfo) : Prop where
  fields : ∃ r, acc[rid]? = some r ∧ info.recordType = RecordHead.type r.data ∧
    info.timestamp = RecordHead.timestamp r.data ∧ info.logOffset = RecordHead.logOffset r.data ∧
    ∃ t, b.m_tableDatas.entries[info.tableIndex]? = some (tableKey (Γ.metaOf r.data), t)
  copy : HoldsCopy b acc pages rid info.offset

theorem Describes.append {pages : List Page} {rid : Nat} {info : RecordGeneralInfo}
    (h : Describes Γ b acc pages rid info) (more : List Page) :
    Describes Γ b acc (pages ++ more) rid info := by
  obtain ⟨r, n, off, p, pre, post, hr, hoff, hfits, hp, hlen, hdata⟩ := h.copy
  refine ⟨h.fields, r, n, off, p, pre, post, hr, hoff, hfits, ?_, hlen, hdata⟩
  obtain ⟨hn, -⟩ := List.getElem?_eq_some_iff.mp hp
  rw [List.getElem?_append_left hn, hp]

/-- The loop invariant: `np` pages are laid out, the pages of `slots` are under their new ids, the
    records `rids` are described, and the tables `keys` have their entries. -/
structure Converted (Γ : MetaDataCollection I) (b : AppendingBlock I) (acc : List Record)
    (np : Nat) (slots rids keys : List Nat) (c : Conversion) : Prop where
  pages : c.pages.length = np
  mapped : ∀ slot ∈ slots, ∃ n p, c.pageMap slot = some n ∧ b.m_pages slot = some p ∧
    c.pages[n]? = some { p with pageId := n }
  described : ∀ rid ∈ rids, ∃ info, c.recordInfos[rid]? = some info ∧
    Describes Γ b acc c.pages rid info
  infos : c.recordInfos.length = b.m_recordCount
  order : c.recordIdOrderyTable = rids
  tables : c.tableInfo.map TableDataInfo.tableId = keys

variable {np : Nat} {slots rids keys : List Nat} {c : Conversion}

theorem Converted.addPage (h : Converted Γ b acc np slots rids keys c) (p : Page)
    (hroom : np < b.m_pageCount) :
    ∃ c', b.addPage c p = .ok c' ∧ Converted Γ b acc (np + 1) slots rids keys c' ∧
      c'.pageMap = c.pageMap ∧ c'.pages = c.pages ++ [{ p with pageId := np }] := by
  have hlen := h.pages
  refine ⟨{ c with pages := c.pages ++ [{ p with pageId := c.pages.length }] }, ?_, ?_, rfl,
    by rw [hlen]⟩
  · unfold AppendingBlock.addPage
    rw [if_pos (by omega)]
  constructor
  · rw [List.length_append, List.length_singleton, hlen]
  · intro slot hslot
    obtain ⟨n, q, hmap, hq, hn⟩ := h.mapped slot hslot
    obtain ⟨hlt, -⟩ := List.getElem?_eq_some_iff.mp hn
    exact ⟨n, q, hmap, hq, by rw [List.getElem?_append_left hlt, hn]⟩
  · intro rid hrid
    obtain ⟨info, hinfo, hdesc⟩ := h.described rid hrid
    exact ⟨info, hinfo, hdesc.append _⟩
  · exact h.infos
  · exact h.order
  · exact h.tables

theorem Converted.addIndexPage (h : Converted Γ b acc np slots rids keys c)
    {x : I.KeyMeta × I.Index} (hpage : I.solidPage x.1 x.2 ≠ none) (hroom : np < b.m_pageCount) :
    Except.Post (b.addIndexPage c x) (Converted Γ b acc (np + 1) slots rids keys)
      fun _ => False := by
  unfold AppendingBlock.addIndexPage createSolidIndexPage
  cases hdata : I.solidPage x.1 x.2 with
  | none => exact absurd hdata hpage
  | some data =>
    obtain ⟨c', hc', hconv, -⟩ := h.addPage { Page.alloc data.length with pageData := data } hroom
    show Except.Post (b.addPage c _) _ _
    rw [hc']
    exact hconv

theorem Converted.addDataPage (hl : Layout Γ b) (h : Converted Γ b acc np slots rids keys c)
    {slot : Nat} {p : Page} (hp : b.m_pages slot = some p) (hnew : slot ∉ slots)
    (hroom : np < b.m_pageCount) :
    Except.Post (b.addDataPage c slot) (Converted Γ b acc (np + 1) (slots ++ [slot]) rids keys)
      fun _ => False := by
  obtain ⟨hid, hlt⟩ := hl.pageId slot p hp
  have hlen := h.pages
  -- the map before the page is added
  have hmap : Converted Γ b acc np slots rids keys
      { c with pageMap := Function.update c.pageMap slot (some np) } := by
    refine ⟨h.pages, ?_, h.described, h.infos, h.order, h.tables⟩
    intro s hs
    obtain ⟨n, q, hn, hq, hpage⟩ := h.mapped s hs
    refine ⟨n, q, ?_, hq, hpage⟩
    show Function.update c.pageMap slot (some np) s = some n
    rw [Function.update_of_ne (fun heq => hnew (by rw [← heq]; exact hs)), hn]
  obtain ⟨c', hc', hconv, hpm, hpages⟩ := hmap.addPage p hroom
  unfold AppendingBlock.addDataPage
  rw [hp, deref_some]
  show Except.Post (if p.pageId < b.m_pageCount then _ else _) _ _
  rw [if_pos (by omega), hid, hlen, hc']
  refine ⟨hconv.pages, ?_, hconv.described, hconv.infos, hconv.order, hconv.tables⟩
  intro s hs
  rcases List.mem_append.mp hs with hs | hs
  · exact hconv.mapped s hs
  · rw [List.mem_singleton.mp hs]
    refine ⟨np, p, ?_, hp, ?_⟩
    · rw [hpm]
      exact Function.update_self ..
    · rw [hpages, List.getElem?_append_right (by show c.pages.length ≤ np; omega)]
      simp [hlen]

/-- The info of one more record of the table. -/
theorem Converted.addRecordInfo (hc : Contents Γ RecordPosition.Fits b acc)
    (h : Converted Γ b acc np slots rids keys c) {tableIdx rid k : Nat} {t : TableData I}
    (hentry : b.m_tableDatas.entries[tableIdx]? = some (k, t)) (hrid : rid ∈ t.recordIds)
    (hslots : ∀ slot ∈ t.pages, slot ∈ slots) (hnp : np ≤ 2 ^ 12)
    (horder : rids.length < b.m_recordCount) :
    Except.Post (b.addRecordInfo tableIdx c rid)
      (Converted Γ b acc np slots (rids ++ [rid]) keys) fun _ => False := by
  have htable := b.m_tableDatas.mem_entries.mp (List.mem_of_getElem? hentry)
  rw [hc.recordIds k t htable] at hrid
  obtain ⟨r, hr, hmeta⟩ := mem_rowsOf.mp hrid
  obtain ⟨m, hm, rfl⟩ := Option.map_eq_some_iff.mp hmeta
  obtain ⟨slot, off, t', hfits, hplaced, ht', hslot⟩ := hc.placed rid r hr
  rw [hm, tableKey, htable] at ht'
  cases ht'
  obtain ⟨n, p, hmap, hp, hpage⟩ := h.mapped slot (hslots slot hslot)
  obtain ⟨p', pre, post, hp', hlen, hdata⟩ := hplaced.bytes
  rw [hp] at hp'
  cases hp'
  have hridlt : rid < b.m_recordCount := by
    obtain ⟨hlt, -⟩ := List.getElem?_eq_some_iff.mp hr
    rw [hc.count]
    exact hlt
  have hn : n < np := by
    obtain ⟨hlt, -⟩ := List.getElem?_eq_some_iff.mp hpage
    rw [← h.pages]
    exact hlt
  unfold AppendingBlock.addRecordInfo
  rw [hplaced.position]
  simp only [RecordPosition.pageId_set hfits, RecordPosition.offsetInPage_set hfits, hmap,
    hc.getRecordByIdx hr]
  show Except.Post (if _ then _ else _) _ _
  rw [if_pos ⟨by rw [h.infos]; exact hridlt, by rw [h.order]; exact horder⟩]
  -- the new info describes the record
  have hdesc : Describes Γ b acc c.pages rid {
      recordType := RecordHead.type (r.stamped (b.m_minRecordId + rid))
      tableIndex := tableIdx
      offset := RecordPosition.set n off
      timestamp := RecordHead.timestamp (r.stamped (b.m_minRecordId + rid))
      logOffset := RecordHead.logOffset (r.stamped (b.m_minRecordId + rid)) } := by
    refine ⟨⟨r, hr, RecordHead.type_setRecordId r.head_le _,
      RecordHead.timestamp_setRecordId r.head_le _, RecordHead.logOffset_setRecordId r.head_le _,
      t, ?_⟩, r, n, off, _, pre, post, hr, rfl, ⟨by omega, hfits.2⟩, hpage, hlen, hdata⟩
    rw [hm]
    exact hentry
  refine ⟨h.pages, h.mapped, ?_, ?_, ?_, h.tables⟩
  · intro rid' hrid'
    by_cases heq : rid' = rid
    · subst heq
      exact ⟨_, List.getElem?_set_self (by rw [h.infos]; exact hridlt), hdesc⟩
    · rcases List.mem_append.mp hrid' with hold | hnew
      · obtain ⟨info, hinfo, hd⟩ := h.described rid' hold
        exact ⟨info, by rw [List.getElem?_set_ne (Ne.symm heq), hinfo], hd⟩
      · exact absurd (List.mem_singleton.mp hnew) heq
  · rw [List.length_set, h.infos]
  · rw [h.order]

/-! ## The loop -/

/-- The indexes of all tables have a page form. -/
def IndexesConvert (b : AppendingBlock I) : Prop :=
  ∀ e ∈ b.m_tableDatas.entries, ∀ x ∈ e.2.indexes, I.solidPage x.1 x.2 ≠ none

/-- The slots, the records and the keys of a list of tables. -/
def slotsOf (es : List (Nat × TableData I)) : List Nat := es.flatMap fun e => e.2.pages

/-- The record numbers on the lists of the tables. -/
def ridsOf (es : List (Nat × TableData I)) : List Nat := es.flatMap fun e => e.2.recordIds

/-- The pages laid out for a list of tables. -/
def laidOf (es : List (Nat × TableData I)) : Nat := (es.map fun e => pagesLaid e.2).sum

theorem Layout.fresh_slot (hl : Layout Γ b) {done rest : List (Nat × TableData I)}
    {e : Nat × TableData I} (hsplit : b.m_tableDatas.entries = done ++ e :: rest) {slot : Nat}
    (hslot : slot ∈ e.2.pages) : slot ∉ slotsOf done := by
  intro hin
  obtain ⟨e', he', hs'⟩ := List.mem_flatMap.mp hin
  have hfind : ∀ x ∈ done ++ e :: rest, b.m_tableDatas.find x.1 = some x.2 := by
    intro x hx
    apply b.m_tableDatas.mem_entries.mp
    rw [hsplit]
    exact hx
  have hkey := hl.owner e'.1 e.1 e'.2 e.2 slot (hfind e' (List.mem_append_left _ he'))
    (hfind e (by simp)) hs' hslot
  have hsorted := b.m_tableDatas.sorted
  rw [hsplit] at hsorted
  have hlt := (List.pairwise_append.mp hsorted).2.2 e' he' e (List.mem_cons_self ..)
  omega

/-- The loop over the indexes of a table. -/
theorem Converted.indexPages {xs : List (I.KeyMeta × I.Index)}
    (h : Converted Γ b acc np slots rids keys c) (hidx : ∀ x ∈ xs, I.solidPage x.1 x.2 ≠ none)
    (hroom : np + xs.length ≤ b.m_pageCount) :
    Except.Post (xs.foldlM b.addIndexPage c) (Converted Γ b acc (np + xs.length) slots rids keys)
      fun _ => False := by
  refine Except.Post.foldlM (fun seen => Converted Γ b acc (np + seen.length) slots rids keys) h ?_
  intro seen x more c' hl' hc'
  have hlen := congrArg List.length hl'
  rw [List.length_append, List.length_cons] at hlen
  rw [List.length_append, List.length_singleton, ← Nat.add_assoc]
  exact hc'.addIndexPage (hidx x (by rw [hl']; simp)) (by omega)

/-- The loop over the pages of a table, none of which is laid out yet. -/
theorem Converted.dataPages (hl : Layout Γ b) {k : Nat} {t : TableData I}
    (htl : TableLayout Γ b.m_pages k t) (h : Converted Γ b acc np slots rids keys c)
    (hfresh : ∀ slot ∈ t.pages, slot ∉ slots) (hroom : np + t.pages.length ≤ b.m_pageCount) :
    Except.Post (t.pages.foldlM b.addDataPage c)
      (Converted Γ b acc (np + t.pages.length) (slots ++ t.pages) rids keys) fun _ => False := by
  refine Except.Post.foldlM
    (fun seen => Converted Γ b acc (np + seen.length) (slots ++ seen) rids keys) (by simpa using h) ?_
  intro seen slot more c' hl' hc'
  have hlen := congrArg List.length hl'
  rw [List.length_append, List.length_cons] at hlen
  have hslot : slot ∈ t.pages := by
    rw [hl']
    simp
  obtain ⟨p, hp⟩ := htl.filled slot hslot
  have hnew : slot ∉ slots ++ seen := by
    intro hin
    rcases List.mem_append.mp hin with hin | hin
    · exact hfresh slot hslot hin
    · have hnodup := htl.nodup
      rw [hl'] at hnodup
      exact (List.nodup_append.mp hnodup).2.2 slot hin slot (List.mem_cons_self ..) rfl
  rw [List.length_append, List.length_singleton, ← Nat.add_assoc, ← List.append_assoc]
  exact hc'.addDataPage hl hp hnew (by omega)

/-- The loop over the records of a table, whose pages are laid out. -/
theorem Converted.recordInfos (hc : Contents Γ RecordPosition.Fits b acc)
    (h : Converted Γ b acc np slots rids keys c) {tableIdx k : Nat} {t : TableData I}
    (hentry : b.m_tableDatas.entries[tableIdx]? = some (k, t))
    (hslots : ∀ slot ∈ t.pages, slot ∈ slots) (hnp : np ≤ 2 ^ 12)
    (horder : rids.length + t.recordIds.length ≤ b.m_recordCount) :
    Except.Post (t.recordIds.foldlM (b.addRecordInfo tableIdx) c)
      (Converted Γ b acc np slots (rids ++ t.recordIds) keys) fun _ => False := by
  refine Except.Post.foldlM (fun seen => Converted Γ b acc np slots (rids ++ seen) keys)
    (by simpa using h) ?_
  intro seen rid more c' hl' hc'
  have hlen := congrArg List.length hl'
  rw [List.length_append, List.length_cons] at hlen
  rw [← List.append_assoc]
  apply hc'.addRecordInfo hc hentry _ hslots hnp
  · rw [List.length_append]
    omega
  · rw [hl']
    simp

/-- One turn of the loop: the table is laid out behind those that are done. -/
theorem Converted.convertTable (hl : Layout Γ b) (hc : Contents Γ RecordPosition.Fits b acc)
    (hidx : IndexesConvert b) (hpages : b.layoutPages = b.m_pageCount)
    (hbound : b.m_pageCount ≤ 2 ^ 12) (hrids : (ridsOf b.m_tableDatas.entries).length ≤ b.m_recordCount)
    {done rest : List (Nat × TableData I)} {e : Nat × TableData I}
    (hsplit : b.m_tableDatas.entries = done ++ e :: rest)
    (h : Converted Γ b acc (laidOf done) (slotsOf done) (ridsOf done) (done.map Prod.fst) c) :
    Except.Post (b.convertTable c e)
      (Converted Γ b acc (laidOf (done ++ [e])) (slotsOf (done ++ [e])) (ridsOf (done ++ [e]))
        ((done ++ [e]).map Prod.fst)) fun _ => False := by
  obtain ⟨k, t⟩ := e
  have hentry : b.m_tableDatas.entries[done.length]? = some (k, t) := by
    rw [hsplit, List.getElem?_append_right (Nat.le_refl _)]
    simp
  have hmem : (k, t) ∈ b.m_tableDatas.entries := List.mem_of_getElem? hentry
  have htl := hl.table k t (b.m_tableDatas.mem_entries.mp hmem)
  have htotal : laidOf done + pagesLaid t ≤ b.m_pageCount := by
    rw [← hpages, layoutPages, hsplit, laidOf]
    simp only [List.map_append, List.sum_append, List.map_cons, List.sum_cons]
    omega
  have hridtotal : (ridsOf done).length + t.recordIds.length ≤ b.m_recordCount := by
    have hlen : (ridsOf b.m_tableDatas.entries).length =
        (ridsOf done).length + (t.recordIds.length + (ridsOf rest).length) := by
      rw [hsplit]
      simp [ridsOf, List.flatMap_append]
    omega
  have hcount : c.tableInfo.length = done.length := by
    have := congrArg List.length h.tables
    simpa using this
  unfold pagesLaid at htotal
  apply Except.Post.bind
  apply (h.indexPages (hidx (k, t) hmem) (by simp only; omega)).mono _ fun _ he => he
  intro c₁ hc₁
  -- a slot of this table belongs to no table before it
  apply Except.Post.bind
  apply (hc₁.dataPages hl htl (fun slot hslot => hl.fresh_slot hsplit hslot)
    (by simp only; omega)).mono _ fun _ he => he
  intro c₂ hc₂
  apply Except.Post.bind
  rw [hcount]
  apply (hc₂.recordInfos hc hentry (fun slot hslot => List.mem_append_right _ hslot)
    (by simp only; omega) (by omega)).mono _ fun _ he => he
  intro c₃ hc₃
  have hlaid : laidOf (done ++ [(k, t)]) = laidOf done + t.indexes.length + t.pages.length := by
    simp [laidOf, pagesLaid, Nat.add_assoc]
  have hslots : slotsOf (done ++ [(k, t)]) = slotsOf done ++ t.pages := by
    simp [slotsOf]
  have hridsOf : ridsOf (done ++ [(k, t)]) = ridsOf done ++ t.recordIds := by
    simp [ridsOf]
  rw [hlaid, hslots, hridsOf]
  refine ⟨hc₃.pages, hc₃.mapped, hc₃.described, hc₃.infos, hc₃.order, ?_⟩
  show (c₃.tableInfo ++ [_]).map _ = _
  have hkey : tableKey t.tableMeta = k := htl.key
  rw [List.map_append, List.map_append, hc₃.tables]
  simp [tableInfoOf, hkey]

/-- After the loop every record on a list is described, and the pages are those of the solid
    block. -/
theorem toSolidBlock_spec (hl : Layout Γ b) (hc : Contents Γ RecordPosition.Fits b acc)
    (hidx : IndexesConvert b) (hpages : b.layoutPages = b.m_pageCount)
    (hbound : b.m_pageCount ≤ 2 ^ 12)
    (hrids : (ridsOf b.m_tableDatas.entries).length ≤ b.m_recordCount) :
    ∃ s pages, b.toSolidBlock = .ok s ∧ s.head = b.solidHead ∧
      s.pages = pages.map SolidPage.ofPage ∧
      s.m_tableInfo.map TableDataInfo.tableId = b.m_tableDatas.entries.map Prod.fst ∧
      s.m_recordInfos.length = b.m_recordCount ∧
      ∀ rid ∈ ridsOf b.m_tableDatas.entries, ∃ info, s.m_recordInfos[rid]? = some info ∧
        Describes Γ b acc pages rid info := by
  have hloop := Except.Post.foldlM (f := b.convertTable) (E := fun _ => False)
    (fun done c' => Converted Γ b acc (laidOf done) (slotsOf done) (ridsOf done)
      (done.map Prod.fst) c')
    (a := {
      pages := []
      pageMap := fun _ => none
      recordInfos := List.replicate b.m_recordCount {}
      recordIdOrderyTable := []
      tableInfo := [] })
    ⟨rfl, fun _ h => (nomatch h), fun _ h => (nomatch h), List.length_replicate, rfl, rfl⟩
    fun done e rest c' hsplit hc' =>
      Converted.convertTable hl hc hidx hpages hbound hrids hsplit hc'
  obtain ⟨c, hrun, hconv⟩ := hloop.exists
  have hcount : c.pages.length = b.m_pageCount := by
    rw [hconv.pages, laidOf, ← hpages, layoutPages]
  refine ⟨b.solidOf c, c.pages, ?_, rfl, rfl, hconv.tables, hconv.infos, hconv.described⟩
  unfold toSolidBlock
  rw [if_pos hl.tableCount, hrun]
  show (if _ then _ else _) = _
  rw [if_pos hcount]
  rfl

/-! ## Each record is on at most one list -/

private theorem sum_singleton_le (o : Option Nat) (n : Nat) {ks : List Nat} (hks : ks.Nodup) :
    (ks.map fun k => (if o = some k then [n] else []).length).sum ≤ 1 := by
  induction ks with
  | nil => exact Nat.zero_le 1
  | cons k ks ih =>
    obtain ⟨hk, hks⟩ := List.nodup_cons.mp hks
    rw [List.map_cons, List.sum_cons]
    by_cases ho : o = some k
    · -- no other key is the record's
      have hrest : ks.map (fun k => (if o = some k then [n] else []).length) =
          ks.map fun _ => 0 := by
        apply List.map_congr_left
        intro k' hk'
        rw [if_neg]
        · rfl
        · intro ho'
          rw [ho] at ho'
          cases ho'
          exact hk hk'
      rw [hrest, if_pos ho]
      simp
    · rw [if_neg ho]
      have := ih hks
      simp only [List.length_nil]
      omega

private theorem length_rowsOf_le (acc : List Record) {ks : List Nat} (hks : ks.Nodup) :
    (ks.map fun k => (rowsOf Γ k acc).length).sum ≤ acc.length := by
  induction acc using List.reverseRecOn with
  | nil =>
    have hzero : (ks.map fun k => (rowsOf Γ k ([] : List Record)).length) = ks.map fun _ => 0 :=
      rfl
    rw [hzero]
    simp
  | append_singleton acc r ih =>
    simp only [rowsOf_snoc, List.length_append, List.sum_map_add, List.length_singleton]
    have hone := sum_singleton_le ((Γ.metaOf r.data).map TableMeta.m_id) acc.length hks
    omega

theorem Contents.length_ridsOf_le {Q : Nat → Nat → Prop} (hc : Contents Γ Q b acc) :
    (ridsOf b.m_tableDatas.entries).length ≤ b.m_recordCount := by
  have hsum : (ridsOf b.m_tableDatas.entries).length =
      ((b.m_tableDatas.entries.map Prod.fst).map fun k => (rowsOf Γ k acc).length).sum := by
    rw [ridsOf, List.length_flatMap, List.map_map]
    congr 1
    apply List.map_congr_left
    intro e he
    show e.2.recordIds.length = (rowsOf Γ e.1 acc).length
    rw [hc.recordIds e.1 e.2 (b.m_tableDatas.mem_entries.mp he)]
  have hnodup : (b.m_tableDatas.entries.map Prod.fst).Nodup := by
    have hsorted := SortedEntries.sorted_iff_keys.mp b.m_tableDatas.sorted
    exact hsorted.imp fun h => ne_of_lt h
  rw [hsum, hc.count]
  exact length_rowsOf_le acc hnodup

/-! ## Runs of successful calls -/

theorem accounted_of_ok {op : Op} (h : b.step Γ op = .ok (.B_OK, b')) :
    Accounted Γ b op .B_OK := by
  right
  intro m hm
  rcases step_cases h with ⟨hs, -⟩ | ⟨b₁, hb₁, ⟨hs, -⟩ | ⟨b₂, hop, t, slot, p, hready, -⟩⟩
  · cases hs
  · cases hs
  rw [hm] at hb₁ hop hready
  rcases getTableData_cases hb₁ with ⟨-, hknown⟩ | ⟨m', t', hm', hfind, ht', rfl⟩
  · exact Or.inl (hknown m rfl)
  · cases hm'
    obtain ⟨hmeta, -, hcurrent, -, hpsize, -⟩ := init_spec ht'
    right; right
    cases hop with
    | found =>
      have htable := hready.table
      rw [tableKey, AppendingBlock.register, SortedMap.find_insert_self _ hfind] at htable
      cases htable
      rw [hready.current] at hcurrent
      cases hcurrent
    | made t₁ ht₁ _ hopen =>
      rw [tableKey, AppendingBlock.register, SortedMap.find_insert_self _ hfind] at ht₁
      cases ht₁
      have hpages := hopen.pages
      have hbytes := hopen.bytes
      simp only [pagesTaken, hcurrent, TableData.indexCount, hmeta] at hpages
      rw [hpsize] at hbytes
      refine ⟨hopen.count, ?_, hbytes⟩
      have hsame : (b.register m t').m_pageCount = b.m_pageCount := rfl
      have hmax : (b.register m t').m_maxPageCount = b.m_maxPageCount := rfl
      omega

/-- The step condition: the call succeeds, a record appended is a row change, and the place of the
    call is addressable. -/
def RowCall (Γ : MetaDataCollection I) (b : AppendingBlock I) (op : Op)
    (s : AppendingBlockStaus) : Prop :=
  s = .B_OK ∧ (∀ r io, op = .append r io → RecordHead.isDML r.data = true) ∧
    RecordPosition.Fits (b.landing (op.tableMeta Γ) op.size).1
      (b.landing (op.tableMeta Γ) op.size).2

theorem RowCall.landsIn {op : Op} {s : AppendingBlockStaus} (h : RowCall Γ b op s) :
    LandsIn Γ RecordPosition.Fits b op := by
  cases op with
  | alloc tableId size => exact trivial
  | append r io => exact h.2.2

theorem pageCount_getTableData {m : Option (TableMeta I)} {b₁ : AppendingBlock I}
    (h : b.getTableData m = .ok b₁) : b₁.m_pageCount = b.m_pageCount := by
  rcases getTableData_cases h with ⟨rfl, -⟩ | ⟨m', t', -, -, -, rfl⟩
  · rfl
  · rfl

theorem pageCount_le_of_fits {op : Op} {s : AppendingBlockStaus} (hb : b.m_pageCount ≤ 2 ^ 12)
    (hfits : RecordPosition.Fits (b.landing (op.tableMeta Γ) op.size).1
      (b.landing (op.tableMeta Γ) op.size).2)
    (h : b.step Γ op = .ok (s, b')) : b'.m_pageCount ≤ 2 ^ 12 := by
  rcases step_cases h with ⟨-, rfl⟩ | ⟨b₁, hb₁, ⟨-, rfl, -⟩ | ⟨b₂, hop, t, slot, p, hready, hend⟩⟩
  · exact hb
  · show b₁.m_pageCount ≤ 2 ^ 12
    rw [pageCount_getTableData hb₁]
    exact hb
  have hland := landing_eq hb₁ hop hready
  rw [hland] at hfits
  have hslot : slot < 2 ^ 12 := hfits.1
  have hcount₁ := pageCount_getTableData hb₁
  have hcount₂ : b₂.m_pageCount ≤ 2 ^ 12 := by
    cases hop with
    | found => omega
    | made t₁ ht₁ _ _ =>
      -- the slot of the new page is the last page id
      have htable := hready.table
      rw [AppendingBlock.newPage, SortedMap.find_modify_self, ht₁] at htable
      cases htable
      have hlast : b₁.m_pageCount + pagesTaken t₁ - 1 = slot := Option.some.inj hready.current
      show b₁.m_pageCount + pagesTaken t₁ ≤ 2 ^ 12
      omega
  rcases hend with ⟨-, rfl | ⟨r, redo, -, rfl⟩⟩ | ⟨r, io, redo, tables, -, -, -, rfl⟩
  · exact hcount₂
  · exact hcount₂
  · exact hcount₂

theorem Run.rowCalls {b₀ : AppendingBlock I} (hb₀ : b₀.m_pageCount ≤ 2 ^ 12)
    (h₀ : NoStray b₀) (h : Run Γ (RowCall Γ) b₀ b acc) :
    NoStray b ∧ b.m_pageCount ≤ 2 ^ 12 ∧ ∀ r ∈ acc, RecordHead.isDML r.data = true := by
  induction h with
  | nil => exact ⟨h₀, hb₀, fun r hr => (nomatch hr)⟩
  | @snoc b b' acc op s run cond call ih =>
    obtain ⟨hstray, hcount, hrows⟩ := ih
    have hok := cond.1
    subst hok
    refine ⟨hstray.step (accounted_of_ok call) call, pageCount_le_of_fits hcount cond.2.2 call, ?_⟩
    intro r hr
    rcases List.mem_append.mp hr with hr | hr
    · exact hrows r hr
    · cases op with
      | alloc tableId size => cases hr
      | append r' io =>
        rw [List.mem_singleton.mp hr]
        exact cond.2.1 r' io rfl

/-! ## Preservation -/

/-- `info` has the type, the times and the table of record `i`, and the page and offset it names
    hold the bytes of the record. -/
def PreservedBy (Γ : MetaDataCollection I) (b : AppendingBlock I) (s : SolidBlock) (i : Nat)
    (r : Record) (info : RecordGeneralInfo) : Prop :=
  info.recordType = RecordHead.type r.data ∧
  info.timestamp = RecordHead.timestamp r.data ∧
  info.logOffset = RecordHead.logOffset r.data ∧
  (∃ table, s.m_tableInfo[info.tableIndex]? = some table ∧
    table.tableId = tableKey (Γ.metaOf r.data)) ∧
  ∃ page data, s.pages[RecordPosition.pageId info.offset]? = some page ∧
    page.pageData = some data ∧
    recordAt data (RecordPosition.offsetInPage info.offset) =
      .ok (r.stamped (b.m_minRecordId + i))

/-- The solid block has every record `acc` of the appending block. -/
def Preserved (Γ : MetaDataCollection I) (b : AppendingBlock I) (acc : List Record)
    (s : SolidBlock) : Prop :=
  ∀ (i : Nat) (r : Record), acc[i]? = some r →
    ∃ info, s.m_recordInfos[i]? = some info ∧ PreservedBy Γ b s i r info

theorem Describes.preserved {pages : List Page} {s : SolidBlock} {i : Nat} {r : Record}
    {info : RecordGeneralInfo} (hr : acc[i]? = some r) (hd : Describes Γ b acc pages i info)
    (hpages : s.pages = pages.map SolidPage.ofPage)
    (htables : s.m_tableInfo.map TableDataInfo.tableId = b.m_tableDatas.entries.map Prod.fst) :
    PreservedBy Γ b s i r info := by
  obtain ⟨r', hr', htype, htime, hlog, t, hentry⟩ := hd.fields
  rw [hr] at hr'
  cases hr'
  obtain ⟨r', n, off, p, pre, post, hr', hoff, hfits, hp, hlen, hdata⟩ := hd.copy
  rw [hr] at hr'
  cases hr'
  refine ⟨htype, htime, hlog, ?_, SolidPage.ofPage p, p.pageData, ?_, rfl, ?_⟩
  · -- the tables of the solid block are in the order of the map
    have hkey := congrArg (fun l => l[info.tableIndex]?) htables
    simp only [List.getElem?_map, hentry, Option.map_some] at hkey
    obtain ⟨table, htable, hid⟩ := Option.map_eq_some_iff.mp hkey
    exact ⟨table, htable, hid⟩
  · rw [hoff, RecordPosition.pageId_set hfits, hpages, List.getElem?_map, hp]
    rfl
  · rw [hoff, RecordPosition.offsetInPage_set hfits, hdata, ← hlen]
    apply recordAt_append
    · rw [Record.length_stamped]
      exact r.head_le
    · rw [Record.size_stamped, Record.length_stamped]

theorem toSolidBlock_of_contents (hl : Layout Γ b) (hc : Contents Γ RecordPosition.Fits b acc)
    (hidx : IndexesConvert b) (hpages : b.layoutPages = b.m_pageCount)
    (hbound : b.m_pageCount ≤ 2 ^ 12) (hrows : ∀ r ∈ acc, RecordHead.isDML r.data = true) :
    ∃ s, b.toSolidBlock = .ok s ∧ s.head = b.solidHead ∧
      s.m_recordInfos.length = b.m_recordCount ∧ Preserved Γ b acc s := by
  obtain ⟨s, pages, hs, hhead, hpages, htables, hinfos, hdesc⟩ :=
    toSolidBlock_spec hl hc hidx hpages hbound hc.length_ridsOf_le
  refine ⟨s, hs, hhead, hinfos, ?_⟩
  intro i r hr
  -- a row change is on the list of its table
  obtain ⟨m, hm⟩ := hc.known r (List.mem_of_getElem? hr) (hrows r (List.mem_of_getElem? hr))
  obtain ⟨slot, off, t, -, -, ht, -⟩ := hc.placed i r hr
  have hmem : i ∈ ridsOf b.m_tableDatas.entries := by
    apply List.mem_flatMap.mpr
    refine ⟨_, b.m_tableDatas.mem_entries.mpr ht, ?_⟩
    rw [hc.recordIds _ t ht]
    apply mem_rowsOf.mpr
    refine ⟨r, hr, ?_⟩
    rw [hm]
    rfl
  obtain ⟨info, hinfo, hd⟩ := hdesc i hmem
  exact ⟨info, hinfo, hd.preserved hr hpages htables⟩

theorem toSolidBlock_of_rowCalls (Γ : MetaDataCollection I) (blockId : Nat) (flag : BlockFlag)
    (bufSize : Nat) (flushSize flushPeriod : Int) (startID : Nat)
    (hrun : Run Γ (RowCall Γ)
      (create blockId flag bufSize flushSize flushPeriod startID) b acc)
    (hidx : IndexesConvert b) :
    ∃ s, b.toSolidBlock = .ok s ∧ s.head = b.solidHead ∧ Preserved Γ b acc s := by
  have hl₀ := layout_create Γ blockId flag bufSize flushSize flushPeriod startID
  have hl := hrun.layout hl₀
  have hc := hrun.contents hl₀ (contents_create Γ RecordPosition.Fits blockId flag bufSize
    flushSize flushPeriod startID) fun _ _ h => RowCall.landsIn h
  obtain ⟨hstray, hbound, hrows⟩ := hrun.rowCalls (Nat.zero_le _)
    (noStray_create blockId flag bufSize flushSize flushPeriod startID)
  obtain ⟨s, hs, hhead, -, hpreserved⟩ :=
    toSolidBlock_of_contents hl hc hidx (layoutPages_eq hl hstray) hbound hrows
  exact ⟨s, hs, hhead, hpreserved⟩

/-- In every run of successful calls that append row changes on addressable places, the block
    reached converts to a solid block with every record, provided its indexes have a page form. -/
theorem toSolidBlock_preserves_rows (Γ : MetaDataCollection I) (blockId : Nat) (flag : BlockFlag)
    (bufSize : Nat) (flushSize flushPeriod : Int) (startID : Nat)
    (hrun : Run Γ (RowCall Γ)
      (create blockId flag bufSize flushSize flushPeriod startID) b acc)
    (hidx : IndexesConvert b) :
    ∃ s, b.toSolidBlock = .ok s ∧ Preserved Γ b acc s := by
  obtain ⟨s, hs, -, hpreserved⟩ :=
    toSolidBlock_of_rowCalls Γ blockId flag bufSize flushSize flushPeriod startID hrun hidx
  exact ⟨s, hs, hpreserved⟩

def sampleRow : Record := rowRecord 65536 [1, 0, 0, 0] length_fourBytes_lt

/-- The step condition as a test. -/
def isRowCall (Γ : MetaDataCollection I) (b : AppendingBlock I) (op : Op) (s : AppendingBlockStaus) :
    Bool :=
  decide (s = .B_OK) &&
    (match op with | .append r _ => RecordHead.isDML r.data | .alloc _ _ => true) &&
    decide (RecordPosition.Fits (b.landing (op.tableMeta Γ) op.size).1
      (b.landing (op.tableMeta Γ) op.size).2)

theorem rowCall_of_isRowCall {op : Op} {s : AppendingBlockStaus} (h : isRowCall Γ b op s = true) :
    RowCall Γ b op s := by
  simp only [isRowCall, Bool.and_eq_true, decide_eq_true_eq] at h
  obtain ⟨⟨hs, hdml⟩, hfits⟩ := h
  refine ⟨hs, fun r io hop => ?_, hfits⟩
  subst hop
  exact hdml

private theorem run_crossedRows :
    ∃ b : AppendingBlock noIndex, Run twoTables (RowCall twoTables) wideBlock b crossedRows := by
  have hexec : (exec twoTables (isRowCall twoTables) crossedOps (wideBlock, []) >>=
      fun x => .ok x.2) = .ok crossedRows := by rfl
  obtain ⟨⟨b, acc⟩, hrun, hacc⟩ := Exec.of_bind hexec
  obtain rfl := Except.ok.inj hacc
  exact ⟨b, run_of_exec (fun _ _ _ _ => rowCall_of_isRowCall) .nil hrun⟩

private theorem run_sampleRow :
    ∃ b : AppendingBlock noIndex, Run twoTables (RowCall twoTables) smallBlock b [sampleRow] := by
  have hexec : (exec twoTables (isRowCall twoTables) [.append sampleRow quietIo] (smallBlock, []) >>=
      fun x => .ok x.2) = .ok [sampleRow] := by rfl
  obtain ⟨⟨b, acc⟩, hrun, hacc⟩ := Exec.of_bind hexec
  obtain rfl := Except.ok.inj hacc
  exact ⟨b, run_of_exec (fun _ _ _ _ => rowCall_of_isRowCall) .nil hrun⟩

/-- The rows of two tables are there after the conversion. -/
theorem toSolidBlock_preserves_rows_crossed :
    ∃ b : AppendingBlock noIndex, Run twoTables (RowCall twoTables) wideBlock b crossedRows ∧
      ∃ s, b.toSolidBlock = .ok s ∧ Preserved twoTables b crossedRows s := by
  obtain ⟨b, hrun⟩ := run_crossedRows
  refine ⟨b, hrun, toSolidBlock_preserves_rows twoTables 1 { appending := true } (2 ^ 22) 0 0 0
    hrun ?_⟩
  intro e _ x _ h
  cases h

/-- A DDL record is on no table's list: its info stays zero, so the solid block has it as an
    insert without times. -/
theorem toSolidBlock_loses_ddl :
    ∃ b : AppendingBlock noIndex, ∃ s,
      Run noTables (fun _ _ s => s = .B_OK) smallBlock b [ddlRecord 1 one_lt_maxText] ∧
      b.toSolidBlock = .ok s ∧ ¬ Preserved noTables b [ddlRecord 1 one_lt_maxText] s := by
  have hcall : (smallBlock.step noTables (.append (ddlRecord 1 one_lt_maxText) quietIo) >>=
      fun x => x.2.toSolidBlock >>= fun s => .ok (x.1, s.m_recordInfos)) = .ok (.B_OK, [{}]) := by
    rfl
  obtain ⟨⟨st, b⟩, hstep, hsolid⟩ := Exec.of_bind hcall
  obtain ⟨s, hs, hret⟩ := Exec.of_bind hsolid
  obtain ⟨hst, hinfos⟩ := Prod.mk.inj (Except.ok.inj hret)
  subst hst
  refine ⟨b, s, Run.snoc .nil rfl hstep, hs, ?_⟩
  intro hpreserved
  obtain ⟨info, hinfo, htype, -⟩ := hpreserved 0 _ rfl
  rw [hinfos] at hinfo
  cases hinfo
  cases htype

/-! ## Lookup by record id -/

theorem toSolidBlock_head {s : SolidBlock} (h : b.toSolidBlock = .ok s) :
    s.head = b.solidHead := by
  unfold toSolidBlock at h
  split at h
  · obtain ⟨c, -, h⟩ := Exec.of_bind h
    split at h
    · cases h
      rfl
    · cases h
  · cases h

theorem getRecord_first {s : SolidBlock} (load : SolidBlock → Nat → Exec (Option (List UInt8)))
    (hcount : s.head.m_recordCount < 2 ^ 32) :
    s.getRecord load s.head.m_minRecordId = .ok none := by
  unfold SolidBlock.getRecord
  have hnum : (((s.head.m_minRecordId : Int) - s.head.m_minRecordId - 1) %
      (2 ^ 32 : Nat)).toNat = 2 ^ 32 - 1 := by
    omega
  rw [hnum, SolidBlock.getRecordByInnerId, if_pos (by omega)]

/-- Both blocks return the same record for every id of the block exactly when it has none. -/
theorem getRecord_agrees_iff_empty (Γ : MetaDataCollection I) (blockId : Nat) (flag : BlockFlag)
    (bufSize : Nat) (flushSize flushPeriod : Int) (startID : Nat)
    (hrun : Run Γ (fun _ _ _ => True)
      (create blockId flag bufSize flushSize flushPeriod startID) b acc)
    (load : SolidBlock → Nat → Exec (Option (List UInt8))) (s : SolidBlock)
    (hs : b.toSolidBlock = .ok s) :
    (∀ id, b.m_minRecordId ≤ id → id < b.m_minRecordId + b.m_recordCount →
      ∃ d, b.getRecord id = .ok d ∧ s.getRecord load id = .ok (some d)) ↔
    b.m_recordCount = 0 := by
  have hhead := toSolidBlock_head hs
  have hcount := hrun.recordCount_le (Nat.zero_le _)
  unfold maxRecordInBlock at hcount
  have hmin : s.head.m_minRecordId = b.m_minRecordId := by
    rw [hhead]
    rfl
  constructor
  · intro hagree
    by_contra hne
    obtain ⟨d, -, hd⟩ := hagree b.m_minRecordId (Nat.le_refl _) (by omega)
    have hfirst := getRecord_first (s := s) load (by
      rw [hhead]
      show b.m_recordCount < 2 ^ 32
      omega)
    rw [hmin] at hfirst
    rw [hfirst] at hd
    cases hd
  · intro hzero id hle hlt
    omega

/-- A block of three rows: the first id is lost, so the two blocks do not agree. -/
theorem getRecord_agrees_iff_empty_crossed :
    ∃ b : AppendingBlock noIndex, ∃ s, Run twoTables (RowCall twoTables) wideBlock b crossedRows ∧
      b.m_recordCount = 3 ∧ b.toSolidBlock = .ok s ∧
      ((∀ id, b.m_minRecordId ≤ id → id < b.m_minRecordId + b.m_recordCount →
        ∃ d, b.getRecord id = .ok d ∧ s.getRecord (fun _ _ => .ok none) id = .ok (some d)) ↔
      b.m_recordCount = 0) := by
  obtain ⟨b, hrun⟩ := run_crossedRows
  obtain ⟨s, hs, -, -⟩ := toSolidBlock_of_rowCalls twoTables 1 { appending := true } (2 ^ 22)
    0 0 0 hrun (by intro e _ x _ h; cases h)
  have hc := hrun.contents (layout_create twoTables 1 { appending := true } (2 ^ 22) 0 0 0)
    (contents_create twoTables RecordPosition.Fits 1 { appending := true } (2 ^ 22) 0 0 0)
    fun _ _ h => RowCall.landsIn h
  have hany : Run twoTables (fun _ _ _ => True) wideBlock b crossedRows :=
    hrun.imp fun _ _ _ _ => trivial
  exact ⟨b, s, hrun, hc.count, hs, getRecord_agrees_iff_empty twoTables 1 { appending := true }
    (2 ^ 22) 0 0 0 hany (fun _ _ => .ok none) s hs⟩

/-- One row: the appending block returns it under id 0, the solid block returns nothing. -/
theorem getRecord_first_lost :
    ∃ b : AppendingBlock noIndex, ∃ s,
      Run twoTables (RowCall twoTables) smallBlock b [sampleRow] ∧ b.m_recordCount = 1 ∧
      b.toSolidBlock = .ok s ∧
      b.getRecord b.m_minRecordId = .ok (sampleRow.stamped b.m_minRecordId) ∧
      s.getRecord (fun _ _ => .ok none) b.m_minRecordId = .ok none := by
  obtain ⟨b, hrun⟩ := run_sampleRow
  obtain ⟨s, hs, hhead, -⟩ := toSolidBlock_of_rowCalls twoTables 1 { appending := true } (2 ^ 20)
    0 0 0 hrun (by intro e _ x _ h; cases h)
  have hl₀ := layout_create twoTables 1 { appending := true } (2 ^ 20) 0 0 0
  have hc := hrun.contents hl₀ (contents_create twoTables RecordPosition.Fits 1
    { appending := true } (2 ^ 20) 0 0 0) fun _ _ h => RowCall.landsIn h
  have hcount : b.m_recordCount = 1 := hc.count
  refine ⟨b, s, hrun, hcount, hs,
    hc.getRecord (hrun.layout hl₀) (show [sampleRow][0]? = some sampleRow from rfl), ?_⟩
  have hfirst := getRecord_first (s := s) (fun _ _ => .ok none) (by
    rw [hhead]
    show b.m_recordCount < 2 ^ 32
    omega)
  rw [hhead] at hfirst
  exact hfirst

end AppendingBlock

end DBStream.Native
