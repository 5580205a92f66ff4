import DBStream.Spec.BlockContents

/-!
# The bytes of a block fit into its buffer

The sizes of the pages add up to `m_size`, which stays below `m_maxSize`, and every page
holds no more than its size.  So the records of a block have at most `m_maxSize` bytes
together (`Packed.total_le`), whatever the calls returned.
-/

namespace DBStream.Native.AppendingBlock

variable {I : IndexImpl} {Γ : MetaDataCollection I} {b b₁ b' : AppendingBlock I}

/-- The sum of `f` over the pages in the first `n` slots. -/
def weigh (f : Page → Nat) (pages : Nat → Option Page) : Nat → Nat
  | 0 => 0
  | n + 1 => weigh f pages n + (pages n).elim 0 f

theorem weigh_succ (f : Page → Nat) (pages : Nat → Option Page) (n : Nat) :
    weigh f pages (n + 1) = weigh f pages n + (pages n).elim 0 f := rfl

private theorem weigh_update_of_le (f : Page → Nat) (pages : Nat → Option Page) {n slot : Nat}
    (hslot : n ≤ slot) (p : Page) :
    weigh f (Function.update pages slot (some p)) n = weigh f pages n := by
  induction n with
  | zero => rfl
  | succ n ih =>
    have hne : n ≠ slot := by omega
    rw [weigh_succ, weigh_succ, ih (by omega), Function.update_of_ne hne]

theorem weigh_update (f : Page → Nat) (pages : Nat → Option Page) {n slot : Nat}
    (hslot : slot < n) (p : Page) :
    weigh f (Function.update pages slot (some p)) n + (pages slot).elim 0 f =
      weigh f pages n + f p := by
  induction n with
  | zero => omega
  | succ n ih =>
    rw [weigh_succ, weigh_succ]
    by_cases hs : slot = n
    · -- the slots before it keep their pages
      subst hs
      rw [weigh_update_of_le f pages (Nat.le_refl _), Function.update_self, Option.elim_some]
      omega
    · have hne : n ≠ slot := fun h => hs h.symm
      rw [Function.update_of_ne hne]
      omega

private theorem weigh_none (f : Page → Nat) (n : Nat) : weigh f (fun _ => none) n = 0 := by
  induction n with
  | zero => rfl
  | succ n ih => rw [weigh_succ, ih, Option.elim_none]

private theorem weigh_le_weigh {f g : Page → Nat} {pages : Nat → Option Page}
    (h : ∀ s p, pages s = some p → f p ≤ g p) (n : Nat) : weigh f pages n ≤ weigh g pages n := by
  induction n with
  | zero => exact Nat.le_refl _
  | succ n ih =>
    rw [weigh_succ, weigh_succ]
    cases hp : pages n with
    | none => simpa using ih
    | some p =>
      have hle := h n p hp
      simp only [Option.elim_some]
      omega

/-- The accounts of a block that holds `total` bytes of records. -/
structure Packed (b : AppendingBlock I) (total : Nat) : Prop where
  pages : b.m_pageCount ≤ b.m_maxPageCount
  fits : ∀ s p, b.m_pages s = some p → p.pageUsedSize ≤ p.pageSize
  size : weigh Page.pageSize b.m_pages b.m_maxPageCount = b.m_size
  used : total ≤ weigh Page.pageUsedSize b.m_pages b.m_maxPageCount
  limit : b.m_size ≤ b.m_maxSize

theorem packed_create (blockId : Nat) (flag : BlockFlag) (bufSize : Nat)
    (flushSize flushPeriod : Int) (startID : Nat) :
    Packed (create blockId flag bufSize flushSize flushPeriod startID : AppendingBlock I) 0 where
  pages := Nat.zero_le _
  fits := fun _ _ h => nomatch h
  size := weigh_none _ _
  used := Nat.zero_le _
  limit := Nat.zero_le _

theorem Packed.total_le {total : Nat} (h : Packed b total) : total ≤ b.m_maxSize := by
  have hsum := weigh_le_weigh h.fits b.m_maxPageCount
  have hused := h.used
  have hsize := h.size
  have hlimit := h.limit
  omega

theorem Packed.getTableData {total : Nat} (h : Packed b total) {m : Option (TableMeta I)}
    (hb₁ : b.getTableData m = .ok b₁) : Packed b₁ total ∧ b₁.m_maxSize = b.m_maxSize := by
  rcases getTableData_cases hb₁ with ⟨rfl, -⟩ | ⟨m', t, -, -, -, rfl⟩
  · exact ⟨h, rfl⟩
  · exact ⟨⟨h.pages, h.fits, h.size, h.used, h.limit⟩, rfl⟩

theorem Packed.opened {total : Nat} (hl : Layout Γ b) (h : Packed b total) {key size : Nat}
    (hopened : Opened b key size b') : Packed b' total ∧ b'.m_maxSize = b.m_maxSize := by
  cases hopened with
  | found => exact ⟨h, rfl⟩
  | made t _ _ hopen =>
    refine ⟨?_, rfl⟩
    have hpages := hopen.pages
    have hbytes := hopen.bytes
    have hpos := Layout.pagesTaken_pos t
    -- the slot of the new page is empty
    have hnone : b.m_pages (b.m_pageCount + pagesTaken t - 1) = none := by
      cases hp : b.m_pages (b.m_pageCount + pagesTaken t - 1) with
      | none => rfl
      | some p =>
        have hlt := (hl.pageId _ p hp).2
        omega
    have hslot : b.m_pageCount + pagesTaken t - 1 < b.m_maxPageCount := by omega
    have hsize := weigh_update Page.pageSize b.m_pages hslot
      { Page.alloc (max size t.pageSize) with pageId := b.m_pageCount + pagesTaken t - 1 }
    have hused := weigh_update Page.pageUsedSize b.m_pages hslot
      { Page.alloc (max size t.pageSize) with pageId := b.m_pageCount + pagesTaken t - 1 }
    rw [hnone] at hsize hused
    refine ⟨Nat.le_of_lt hpages, ?_, hsize.trans (congrArg (· + _) h.size), ?_,
      Nat.le_of_lt hbytes⟩
    · intro s p hp
      by_cases hs : s = b.m_pageCount + pagesTaken t - 1
      · simp only [newPage, hs, Function.update_self, Option.some.injEq] at hp
        subst hp
        exact Nat.zero_le _
      · simp only [newPage, Function.update_of_ne hs] at hp
        exact h.fits s p hp
    · exact Nat.le_trans h.used (Nat.le_of_eq hused.symm)

theorem Packed.place {total : Nat} (hl : Layout Γ b) (h : Packed b total) {key slot : Nat}
    {t : TableData I} {p : Page} {r : Record} (hready : Ready b key r.data.length slot t p) :
    Packed (b.place slot p r) (total + r.data.length) := by
  have hlt := (hl.pageId slot p hready.page).2
  have hpages := h.pages
  have hslot : slot < b.m_maxPageCount := by omega
  have hsize := weigh_update Page.pageSize b.m_pages hslot
    (p.write (r.stamped (b.m_minRecordId + b.m_recordCount)))
  have hused := weigh_update Page.pageUsedSize b.m_pages hslot
    (p.write (r.stamped (b.m_minRecordId + b.m_recordCount)))
  rw [hready.page] at hsize hused
  have hlen : (p.write (r.stamped (b.m_minRecordId + b.m_recordCount))).pageUsedSize =
      p.pageUsedSize + r.data.length := by
    simp [Page.pageUsedSize]
  have hroom := hready.room
  have htotal := h.used
  have hsum := h.size
  simp only [Option.elim_some, Page.write_pageSize, hlen] at hsize hused
  refine ⟨h.pages, ?_, ?_, ?_, h.limit⟩
  · intro s q hq
    by_cases hs : s = slot
    · simp only [AppendingBlock.place, hs, Function.update_self, Option.some.injEq] at hq
      subst hq
      rw [hlen]
      exact hroom
    · simp only [AppendingBlock.place, Function.update_of_ne hs] at hq
      exact h.fits s q hq
  · show weigh _ (Function.update b.m_pages slot _) b.m_maxPageCount = b.m_size
    omega
  · show _ ≤ weigh _ (Function.update b.m_pages slot _) b.m_maxPageCount
    omega

end DBStream.Native.AppendingBlock
