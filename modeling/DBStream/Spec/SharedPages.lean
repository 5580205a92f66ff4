import DBStream.Spec.SolidCorrect

/-!
# The pages a block shares with its solid form

`toSolidBlock` numbers the pages table by table, in the order of the table ids, the index
pages of a table first, and writes the number into the page.  The appending block had
numbered them in the order in which they were allocated.  `getRecord` of the appending
block compares the id in the page with the one in the record's position, so after the
conversion it finds exactly the records of pages whose two numbers agree
(`getRecord_afterSolid_iff`).
-/

namespace DBStream.Native.AppendingBlock

variable {I : IndexImpl} {Γ : MetaDataCollection I} {b b' : AppendingBlock I} {c c' : Conversion}

/-! ## What the loop does to the page map -/

theorem addPage_ok {p : Page} (h : b.addPage c p = .ok c') :
    c'.pageMap = c.pageMap ∧ c'.pages.length = c.pages.length + 1 := by
  unfold addPage at h
  split at h
  · cases h
    simp
  · cases h

private theorem addIndexPage_ok {x : I.KeyMeta × I.Index} (h : b.addIndexPage c x = .ok c') :
    c'.pageMap = c.pageMap ∧ c'.pages.length = c.pages.length + 1 := by
  obtain ⟨p, -, h⟩ := Exec.of_bind h
  exact addPage_ok h

private theorem addDataPage_ok (hl : Layout Γ b) {slot : Nat} (h : b.addDataPage c slot = .ok c') :
    c'.pageMap = Function.update c.pageMap slot (some c.pages.length) ∧
      c'.pages.length = c.pages.length + 1 := by
  obtain ⟨p, hp, h⟩ := Exec.of_bind h
  have hid := (hl.pageId slot p (deref_eq_ok hp)).1
  split at h
  · rw [hid] at h
    exact addPage_ok h
  · cases h

theorem addRecordInfo_ok {tableIdx rid : Nat} (h : b.addRecordInfo tableIdx c rid = .ok c') :
    c'.pageMap = c.pageMap ∧ c'.pages = c.pages := by
  unfold addRecordInfo at h
  split at h
  · cases h
  · split at h
    · cases h
    · obtain ⟨d, -, h⟩ := Exec.of_bind h
      split at h
      · cases h
        exact ⟨rfl, rfl⟩
      · cases h

/-! ## The numbers of the pages -/

/-- The place of a page in the solid block of the tables `es`: it is page `i` of a table, behind
    the pages of the tables in front and the table's own index pages. -/
def SolidPlace (es : List (Nat × TableData I)) (slot n : Nat) : Prop :=
  ∃ done e rest i, es = done ++ e :: rest ∧ e.2.pages[i]? = some slot ∧
    n = laidOf done + e.2.indexes.length + i

theorem SolidPlace.mem_slotsOf {es : List (Nat × TableData I)} {slot n : Nat}
    (h : SolidPlace es slot n) : slot ∈ slotsOf es := by
  obtain ⟨done, e, rest, i, rfl, hi, -⟩ := h
  apply List.mem_flatMap.mpr
  exact ⟨e, by simp, List.mem_of_getElem? hi⟩

theorem solidPlace_snoc {es : List (Nat × TableData I)} {e : Nat × TableData I} {slot n : Nat} :
    SolidPlace (es ++ [e]) slot n ↔ SolidPlace es slot n ∨
      ∃ i, e.2.pages[i]? = some slot ∧ n = laidOf es + e.2.indexes.length + i := by
  constructor
  · rintro ⟨done, e', rest, i, hsplit, hi, hn⟩
    rcases List.eq_nil_or_concat' rest with rfl | ⟨rest', x, rfl⟩
    · obtain ⟨rfl, he⟩ := List.append_inj' hsplit rfl
      cases he
      exact .inr ⟨i, hi, hn⟩
    · rw [← List.cons_append, ← List.append_assoc] at hsplit
      obtain ⟨rfl, -⟩ := List.append_inj' hsplit rfl
      exact .inl ⟨done, e', rest', i, rfl, hi, hn⟩
  · rintro (⟨done, e', rest, i, rfl, hi, hn⟩ | ⟨i, hi, hn⟩)
    · exact ⟨done, e', rest ++ [e], i, by simp, hi, hn⟩
    · exact ⟨es, e, [], i, rfl, hi, hn⟩

/-- The loop invariant: the tables `es` are laid out, and the map has the places of their data
    pages. -/
structure Numbered (es : List (Nat × TableData I)) (c : Conversion) : Prop where
  pages : c.pages.length = laidOf es
  mapped : ∀ slot n, c.pageMap slot = some n ↔ SolidPlace es slot n

/-- The invariant inside a table: its index pages and the data pages `seen` are laid out. -/
structure NumberedUpTo (es : List (Nat × TableData I)) (indexes : Nat) (seen : List Nat)
    (c : Conversion) : Prop where
  pages : c.pages.length = laidOf es + indexes + seen.length
  mapped : ∀ slot n, c.pageMap slot = some n ↔ SolidPlace es slot n ∨
    ∃ i, seen[i]? = some slot ∧ n = laidOf es + indexes + i

variable {es : List (Nat × TableData I)} {indexes : Nat} {seen : List Nat}

/-- A page that no table has taken yet gets the next number. -/
theorem NumberedUpTo.addDataPage (hl : Layout Γ b) (h : NumberedUpTo es indexes seen c)
    {slot : Nat} (hnew : slot ∉ slotsOf es) (hunseen : slot ∉ seen)
    (hc : b.addDataPage c slot = .ok c') : NumberedUpTo es indexes (seen ++ [slot]) c' := by
  obtain ⟨hmap, hlen⟩ := addDataPage_ok hl hc
  refine ⟨by rw [hlen, h.pages, List.length_append, List.length_singleton]; omega, ?_⟩
  intro s n
  rw [hmap]
  by_cases hs : s = slot
  · subst hs
    rw [Function.update_self, h.pages, Option.some_inj]
    constructor
    · intro hn
      exact .inr ⟨seen.length, by simp, hn.symm⟩
    · rintro (hplace | ⟨i, hi, hn⟩)
      · exact absurd hplace.mem_slotsOf hnew
      · have hi' : i = seen.length := by
          rw [List.getElem?_append] at hi
          split at hi
          · exact absurd (List.mem_of_getElem? hi) hunseen
          · obtain ⟨hlt, -⟩ := List.getElem?_eq_some_iff.mp hi
            simp only [List.length_singleton] at hlt
            omega
        rw [hn, hi']
  · rw [Function.update_of_ne hs, h.mapped]
    apply or_congr_right
    apply exists_congr
    intro i
    apply and_congr_left
    intro _
    rw [List.getElem?_append]
    split
    · rfl
    · rename_i hge
      rw [List.getElem?_eq_none (by omega)]
      constructor
      · intro hi
        cases hi
      · intro hi
        exact absurd (List.mem_singleton.mp (List.mem_of_getElem? hi)) hs

/-- The pages of a table are numbered behind those of the tables before it. -/
theorem Numbered.convertTable (hl : Layout Γ b) {done rest : List (Nat × TableData I)}
    {e : Nat × TableData I} (hsplit : b.m_tableDatas.entries = done ++ e :: rest)
    (h : Numbered done c) :
    Except.Post (b.convertTable c e) (Numbered (done ++ [e])) fun _ => True := by
  -- the index pages
  apply Except.Post.bind
  apply (Except.Post.foldlM (fun seen c' => c'.pageMap = c.pageMap ∧
    c'.pages.length = c.pages.length + seen.length) ⟨rfl, rfl⟩ _).mono _ fun _ he => he
  · intro seen x more c' _ ⟨hmap, hlen⟩
    cases hx : b.addIndexPage c' x with
    | error f => trivial
    | ok c'' =>
      obtain ⟨hmap', hlen'⟩ := addIndexPage_ok hx
      refine ⟨by rw [hmap', hmap], ?_⟩
      rw [hlen', hlen, List.length_append, List.length_singleton]
      omega
  intro c₁ ⟨hmap₁, hlen₁⟩
  have h₁ : NumberedUpTo done e.2.indexes.length [] c₁ := by
    refine ⟨by rw [hlen₁, h.pages]; rfl, ?_⟩
    intro slot n
    rw [hmap₁, h.mapped]
    simp
  -- the data pages
  apply Except.Post.bind
  apply (Except.Post.foldlM (NumberedUpTo done e.2.indexes.length) h₁ _).mono _ fun _ he => he
  · intro seen slot more c' hl' hc'
    have hnodup := (hl.table e.1 e.2 (b.m_tableDatas.mem_entries.mp
      (by rw [hsplit]; simp))).nodup
    rw [hl'] at hnodup
    have hunseen : slot ∉ seen := by
      intro hin
      exact (List.nodup_append.mp hnodup).2.2 slot hin slot (List.mem_cons_self ..) rfl
    cases hx : b.addDataPage c' slot with
    | error f => trivial
    | ok c'' =>
      exact hc'.addDataPage hl (hl.fresh_slot hsplit (by rw [hl']; simp)) hunseen hx
  intro c₂ hc₂
  -- the record infos leave pages and map alone
  apply Except.Post.bind
  apply (Except.Post.foldlM (fun _ c' => c'.pageMap = c₂.pageMap ∧ c'.pages = c₂.pages)
    ⟨rfl, rfl⟩ _).mono _ fun _ he => he
  · intro seen rid more c' _ ⟨hmap, hpages⟩
    cases hx : b.addRecordInfo c.tableInfo.length c' rid with
    | error f => trivial
    | ok c'' =>
      obtain ⟨hmap', hpages'⟩ := addRecordInfo_ok hx
      exact ⟨by rw [hmap', hmap], by rw [hpages', hpages]⟩
  intro c₃ ⟨hmap₃, hpages₃⟩
  refine ⟨?_, ?_⟩
  · show c₃.pages.length = _
    rw [hpages₃, hc₂.pages]
    simp [laidOf, pagesLaid, Nat.add_assoc]
  · intro slot n
    rw [hmap₃, hc₂.mapped, solidPlace_snoc]

theorem convertTables_numbered (hl : Layout Γ b) (h : b.convertTables = .ok c) :
    Numbered b.m_tableDatas.entries c := by
  have h₀ : Numbered ([] : List (Nat × TableData I)) {
      pages := []
      pageMap := fun _ => none
      recordInfos := List.replicate b.m_recordCount {}
      recordIdOrderyTable := []
      tableInfo := [] } := by
    refine ⟨rfl, ?_⟩
    intro slot n
    constructor
    · intro hn
      cases hn
    · intro hplace
      cases hplace.mem_slotsOf
  have hloop := Except.Post.foldlM (f := b.convertTable) (E := fun _ => True)
    (l := b.m_tableDatas.entries) Numbered h₀
    fun done e rest c' hsplit hc' => Numbered.convertTable hl hsplit hc'
  unfold convertTables at h
  rw [h] at hloop
  exact hloop

/-! ## Reading the old block -/

/-- The page in `slot` has the same number in the solid block. -/
def KeepsNumber (b : AppendingBlock I) (slot : Nat) : Prop :=
  ∀ n, SolidPlace b.m_tableDatas.entries slot n → n = slot

/-- The slot of the page that record `id` is in. -/
def slotOf (b : AppendingBlock I) (id : Nat) : Option Nat :=
  (b.m_recordIDs (id - b.m_minRecordId)).map RecordPosition.pageId

private theorem toSolidBlock_convertTables {s : SolidBlock} (h : b.toSolidBlock = .ok s) :
    ∃ c, b.convertTables = .ok c := by
  unfold toSolidBlock at h
  split at h
  · obtain ⟨c, hc, -⟩ := Exec.of_bind h
    exact ⟨c, hc⟩
  · cases h

/-- For every block and every record the block finds, `getRecord` finds the same bytes after the
    conversion if and only if the record's page keeps its number. -/
theorem getRecord_afterSolid_iff (Γ : MetaDataCollection I) (blockId : Nat) (flag : BlockFlag)
    (bufSize : Nat) (flushSize flushPeriod : Int) (startID : Nat) {acc : List Record}
    (hrun : Run Γ (fun _ _ _ => True)
      (create blockId flag bufSize flushSize flushPeriod startID) b acc)
    {s : SolidBlock} (hs : b.toSolidBlock = .ok s)
    {id : Nat} {d : List UInt8} (hd : b.getRecord id = .ok d) :
    ∃ b', b.afterSolid = .ok b' ∧
      (b'.getRecord id = .ok d ↔ ∀ slot, b.slotOf id = some slot → b.KeepsNumber slot) := by
  have hl := hrun.layout (layout_create Γ blockId flag bufSize flushSize flushPeriod startID)
  obtain ⟨c, hc⟩ := toSolidBlock_convertTables hs
  have hnum := convertTables_numbered hl hc
  refine ⟨_, by rw [afterSolid, hc]; rfl, ?_⟩
  unfold getRecord at hd ⊢
  by_cases hbelow : id < b.m_minRecordId
  · rw [if_pos hbelow] at hd
    cases hd
  rw [if_neg hbelow] at hd
  simp only [hbelow, if_false]
  cases hoff : b.m_recordIDs (id - b.m_minRecordId) with
  | none =>
    rw [hoff] at hd
    cases hd
  | some offset =>
    simp only [hoff] at hd ⊢
    obtain ⟨p, hp, hd⟩ := Exec.of_bind hd
    have hp := deref_eq_ok hp
    split at hd
    · rename_i hid
      have hslot : b.slotOf id = some (RecordPosition.pageId offset) := by
        rw [slotOf, hoff, Option.map_some]
      simp only [hslot, Option.some_inj, forall_eq', hp, Option.map_some, deref_some]
      show (if (c.pageMap p.pageId).getD p.pageId = _ then _ else _) = _ ↔ _
      rw [hid]
      cases hn : c.pageMap (RecordPosition.pageId offset) with
      | none =>
        -- no table has the page: it is not renumbered
        rw [Option.getD_none, if_pos rfl]
        refine iff_of_true hd ?_
        intro n hplace
        rw [← hnum.mapped, hn] at hplace
        cases hplace
      | some n =>
        have hkeeps : n = RecordPosition.pageId offset ↔
            b.KeepsNumber (RecordPosition.pageId offset) := by
          constructor
          · intro heq n' hplace
            rw [← hnum.mapped, hn] at hplace
            cases hplace
            exact heq
          · intro hk
            exact hk n ((hnum.mapped _ _).mp hn)
        rw [← hkeeps, Option.getD_some]
        by_cases heq : n = RecordPosition.pageId offset
        · rw [if_pos heq]
          exact iff_of_true hd heq
        · rw [if_neg heq]
          exact iff_of_false (fun h => nomatch h) heq
    · cases hd

/-- Three rows of two tables, each read back exactly if its page keeps its number. -/
theorem getRecord_afterSolid_iff_crossed :
    ∃ b b' : AppendingBlock noIndex, ∃ s, Run twoTables (fun _ _ _ => True) wideBlock b crossedRows ∧
      b.toSolidBlock = .ok s ∧ b.afterSolid = .ok b' ∧
      ∀ id < 3, ∃ d, b.getRecord id = .ok d ∧
        (b'.getRecord id = .ok d ↔ ∀ slot, b.slotOf id = some slot → b.KeepsNumber slot) := by
  have hexec : (exec twoTables (fun _ _ _ => true) crossedOps (wideBlock, []) >>= fun x =>
      x.1.toSolidBlock >>= fun _ => x.1.getRecord 0 >>= fun _ => x.1.getRecord 1 >>= fun _ =>
      x.1.getRecord 2 >>= fun _ => .ok x.2) = .ok crossedRows := by rfl
  obtain ⟨⟨b, acc⟩, hb, hexec⟩ := Exec.of_bind hexec
  obtain ⟨s, hs, hexec⟩ := Exec.of_bind hexec
  obtain ⟨d₀, hd₀, hexec⟩ := Exec.of_bind hexec
  obtain ⟨d₁, hd₁, hexec⟩ := Exec.of_bind hexec
  obtain ⟨d₂, hd₂, hret⟩ := Exec.of_bind hexec
  obtain rfl := Except.ok.inj hret
  have hrun : Run twoTables (fun _ _ _ => True) wideBlock b crossedRows :=
    run_of_exec (fun _ _ _ _ _ => trivial) .nil hb
  have hread : ∀ id < 3, ∃ d, b.getRecord id = .ok d := by
    intro id hid
    rcases (show id = 0 ∨ id = 1 ∨ id = 2 by omega) with rfl | rfl | rfl
    exacts [⟨d₀, hd₀⟩, ⟨d₁, hd₁⟩, ⟨d₂, hd₂⟩]
  have hiff : ∀ id d, b.getRecord id = .ok d → ∃ b', b.afterSolid = .ok b' ∧
      (b'.getRecord id = .ok d ↔ ∀ slot, b.slotOf id = some slot → b.KeepsNumber slot) :=
    fun id d hd => getRecord_afterSolid_iff twoTables 1 { appending := true } (2 ^ 22) 0 0 0 hrun hs hd
  obtain ⟨b', hafter, -⟩ := hiff 0 d₀ hd₀
  refine ⟨b, b', s, hrun, hs, hafter, fun id hid => ?_⟩
  obtain ⟨d, hd⟩ := hread id hid
  obtain ⟨b₁, hb₁, hsame⟩ := hiff id d hd
  cases hafter.symm.trans hb₁
  exact ⟨d, hd, hsame⟩

/-- The table with the smaller id has got the later pages: the solid block puts them first, and
    the assertion in `getRecord` of the old block fails for both rows. -/
theorem getRecord_afterSolid_fails :
    ∃ b b' : AppendingBlock noIndex, ∃ acc s d, Run twoTables (fun _ _ _ => True) wideBlock b acc ∧
      b.toSolidBlock = .ok s ∧ b.afterSolid = .ok b' ∧ b.getRecord 0 = .ok d ∧
      b'.getRecord 0 = .error .assertFailed ∧ b'.getRecord 1 = .error .assertFailed := by
  have hexec : (exec twoTables (fun _ _ _ => true) crossedOps (wideBlock, []) >>= fun x =>
      x.1.toSolidBlock >>= fun _ => x.1.afterSolid >>= fun b' => x.1.getRecord 0 >>= fun _ =>
      .ok (b'.getRecord 0, b'.getRecord 1)) =
      .ok (.error .assertFailed, .error .assertFailed) := by rfl
  obtain ⟨⟨b, acc⟩, hb, hexec⟩ := Exec.of_bind hexec
  obtain ⟨s, hs, hexec⟩ := Exec.of_bind hexec
  obtain ⟨b', hb', hexec⟩ := Exec.of_bind hexec
  obtain ⟨d, hd, hret⟩ := Exec.of_bind hexec
  have hpair := Prod.mk.inj (Except.ok.inj hret)
  exact ⟨b, b', acc, s, d, run_of_exec (fun _ _ _ _ _ => trivial) .nil hb, hs, hb', hd, hpair.1,
    hpair.2⟩

end DBStream.Native.AppendingBlock
