import DBStream.Native.ClusterLogFile

/-!
# Finding the block of a log index

`findBlock` halves the places from 0 to the number of blocks.  The upper bound is the first place
not searched at the start, and the last one when the search moved it, and the lower bound is not
moved back: a block that was probed and begins below the log index is left behind.  Only the last
one is gone back to.
-/

namespace DBStream.Native.CLUSTER.LogFile

variable {f : LogFile} {blocks : List Block} {x : LogIndexInfo} {k p fuel : Nat} {s e : Int}

/-- The block with the greatest first index that is at most `x`. -/
def Containing (blocks : List Block) (x : LogIndexInfo) (p : Nat) : Prop :=
  ∃ b, blocks[p]? = some b ∧ b.idx.logIndex ≤ x ∧
    ∀ c ∈ blocks, c.idx.logIndex ≤ x → c.idx.logIndex ≤ b.idx.logIndex

/-- The halving between `s` and `e` on its way to the place `p` looks at `p`. -/
def probes (p : Int) : Nat → Int → Int → Bool
  | 0, _, _ => false
  | fuel + 1, s, e =>
    if s < e then
      let m := (s + e) / 2
      if m = p then true
      else if m < p then probes p fuel (m + 1) e
      else probes p fuel s (m - 1)
    else false

/-- The index behind the last one of the file, as `findBlock` counts it. -/
def endLogIndex (f : LogFile) : LogIndexInfo :=
  { f.m_logIndex with logIndex := (f.m_logIndex.logIndex + 1) % 2 ^ 64 }

/-- A block that begins at `x` is found by its index, the last one by the end of the file, and
    another one if it was not probed. -/
def Found (f : LogFile) (blocks : List Block) (x : LogIndexInfo) (p : Nat) : Prop :=
  if ∃ b ∈ blocks, b.idx.logIndex = x then True
  else if p + 1 = blocks.length then x < f.endLogIndex
  else probes p (blocks.length + 1) 0 blocks.length = false

instance (f : LogFile) (blocks : List Block) (x : LogIndexInfo) (p : Nat) :
    Decidable (Found f blocks x p) :=
  inferInstanceAs (Decidable (if ∃ b ∈ blocks, b.idx.logIndex = x then True
    else if p + 1 = blocks.length then x < f.endLogIndex
    else probes p (blocks.length + 1) 0 blocks.length = false))

/-! ## Where the log index falls -/

/-- The first `k` blocks are those that begin at most at `x`. -/
def Split (blocks : List Block) (x : LogIndexInfo) (k : Nat) : Prop :=
  k ≤ blocks.length ∧ ∀ i b, blocks[i]? = some b → (b.idx.logIndex ≤ x ↔ i < k)

theorem exists_split (h : blocks.Pairwise fun b c => b.idx.logIndex < c.idx.logIndex)
    (x : LogIndexInfo) : ∃ k, Split blocks x k := by
  induction blocks with
  | nil => exact ⟨0, Nat.le_refl _, by simp⟩
  | cons b blocks ih =>
    obtain ⟨hb, hblocks⟩ := List.pairwise_cons.mp h
    obtain ⟨k, hk, hsplit⟩ := ih hblocks
    by_cases hle : b.idx.logIndex ≤ x
    · refine ⟨k + 1, Nat.succ_le_succ hk, ?_⟩
      intro i c hc
      cases i with
      | zero =>
        obtain rfl : b = c := by simpa using hc
        simp [hle]
      | succ i => simpa using hsplit i c (by simpa using hc)
    · refine ⟨0, Nat.zero_le _, ?_⟩
      intro i c hc
      have hlt : x < c.idx.logIndex := by
        rcases List.mem_cons.mp (List.mem_of_getElem? hc) with rfl | hmem
        · exact not_le.mp hle
        · exact (not_le.mp hle).trans (hb c hmem)
      simp [not_le.mpr hlt]

theorem Split.containing_iff (h : Split blocks x k)
    (hsorted : blocks.Pairwise fun b c => b.idx.logIndex < c.idx.logIndex) :
    Containing blocks x p ↔ p + 1 = k := by
  constructor
  · rintro ⟨b, hb, hle, hgreatest⟩
    have hlt : p < k := (h.2 p b hb).mp hle
    by_contra hne
    have hnext : p + 1 < k := by omega
    have hlength := h.1
    have hc : blocks[p + 1]? = some blocks[p + 1] := List.getElem?_eq_getElem (by omega)
    have hle' := hgreatest _ (List.mem_of_getElem? hc) ((h.2 _ _ hc).mpr hnext)
    obtain ⟨hp, rfl⟩ := List.getElem?_eq_some_iff.mp hb
    have hup := List.pairwise_iff_getElem.mp hsorted p (p + 1) hp (by omega) (by omega)
    exact absurd hup (not_lt.mpr hle')
  · rintro rfl
    have hlength := h.1
    have hb : blocks[p]? = some blocks[p] := List.getElem?_eq_getElem (by omega)
    refine ⟨_, hb, (h.2 _ _ hb).mpr (by omega), ?_⟩
    intro c hc hle
    obtain ⟨i, hi, rfl⟩ := List.getElem_of_mem hc
    have hlt : i < p + 1 := (h.2 _ _ (List.getElem?_eq_getElem hi)).mp hle
    rcases Nat.lt_or_eq_of_le (Nat.le_of_lt_succ hlt) with hip | rfl
    · exact (List.pairwise_iff_getElem.mp hsorted i p hi (by omega) hip).le
    · exact le_refl _

theorem Containing.unique {q : Nat} (hp : Containing blocks x p) (hq : Containing blocks x q)
    (hsorted : blocks.Pairwise fun b c => b.idx.logIndex < c.idx.logIndex) : p = q := by
  obtain ⟨k, hsplit⟩ := exists_split hsorted x
  have hpk := (hsplit.containing_iff hsorted).mp hp
  have hqk := (hsplit.containing_iff hsorted).mp hq
  omega

/-! ## The halving -/

theorem searchBlock_turn (fuel : Nat) (hs : 0 ≤ s) (hse : s < e) (hen : e ≤ blocks.length) :
    ∃ b, blocks[((s + e) / 2).toNat]? = some b ∧
      searchBlock blocks x (fuel + 1) s e =
        if b.idx.logIndex < x then searchBlock blocks x fuel ((s + e) / 2 + 1) e
        else if x < b.idx.logIndex then searchBlock blocks x fuel s ((s + e) / 2 - 1)
        else some (.inl ((s + e) / 2).toNat) := by
  have hlt : ((s + e) / 2).toNat < blocks.length := by omega
  refine ⟨_, List.getElem?_eq_getElem hlt, ?_⟩
  simp only [searchBlock, if_pos hse, List.getElem?_eq_getElem hlt]
  rfl

/-- The search for an index at which no block begins. -/
theorem Split.searchBlock_between (h : Split blocks x k) (hne : ∀ b ∈ blocks, b.idx.logIndex ≠ x)
    (hs : 0 ≤ s) (hsk : s ≤ k) (hke : k ≤ e + 1) (hen : e ≤ blocks.length)
    (hfuel : (e - s).toNat < fuel) :
    ∃ e', (k : Int) ≤ e' + 1 ∧ searchBlock blocks x fuel s e =
      some (.inr (if s = k ∨ probes (k - 1) fuel s e then (k : Int) else k - 1, e')) := by
  induction fuel generalizing s e with
  | zero => omega
  | succ fuel ih =>
    by_cases hse : s < e
    · obtain ⟨b, hb, hturn⟩ := searchBlock_turn (x := x) fuel hs hse hen
      rw [hturn, probes, if_pos hse]
      have hm₁ : s ≤ (s + e) / 2 := by omega
      have hm₂ : (s + e) / 2 < e := by omega
      have hsplit := h.2 _ b hb
      have hbx := hne b (List.mem_of_getElem? hb)
      generalize (s + e) / 2 = m at hm₁ hm₂ hsplit ⊢
      by_cases hmk : m < k
      · have hlt : b.idx.logIndex < x := lt_of_le_of_ne (hsplit.mpr (by omega)) hbx
        obtain ⟨e', he', heq⟩ := ih (s := m + 1) (e := e) (by omega) (by omega) hke hen (by omega)
        refine ⟨e', he', ?_⟩
        rw [if_pos hlt, heq]
        have hsne : s ≠ k := by omega
        by_cases hlast : m = (k : Int) - 1
        · rw [if_pos (.inl (by omega)), if_pos (.inr (if_pos hlast))]
        · rw [if_neg hlast, if_pos (show m < (k : Int) - 1 by omega)]
          have hmne : m + 1 ≠ k := by omega
          simp [hsne, hmne]
      · have hgt : x < b.idx.logIndex := not_le.mp (mt hsplit.mp (by omega))
        obtain ⟨e', he', heq⟩ := ih (s := s) (e := m - 1) hs hsk (by omega) (by omega) (by omega)
        refine ⟨e', he', ?_⟩
        rw [if_neg (not_lt.mpr hgt.le), if_pos hgt, heq, if_neg (show m ≠ (k : Int) - 1 by omega),
          if_neg (show ¬ m < (k : Int) - 1 by omega)]
    · refine ⟨e, hke, ?_⟩
      rw [searchBlock, if_neg hse, probes, if_neg hse]
      by_cases hsk' : s = k
      · rw [if_pos (.inl hsk'), hsk']
      · rw [if_neg (by simpa using hsk')]
        have : s = k - 1 := by omega
        rw [this]

theorem Split.searchBlock_at (h : Split blocks x (p + 1))
    (hp : ∀ b, blocks[p]? = some b → b.idx.logIndex = x)
    (hsorted : blocks.Pairwise fun b c => b.idx.logIndex < c.idx.logIndex)
    (hs : 0 ≤ s) (hsp : s ≤ p) (hpe : p ≤ e) (hen : e ≤ blocks.length)
    (hend : e = blocks.length ∨ p + 1 < blocks.length) (hfuel : e - s < fuel) :
    searchBlock blocks x fuel s e = some (.inl p) ∨
      p + 1 < blocks.length ∧ searchBlock blocks x fuel s e = some (.inr ((p : Int), (p : Int))) := by
  have hlength := h.1
  induction fuel generalizing s e with
  | zero => omega
  | succ fuel ih =>
    by_cases hse : s < e
    · obtain ⟨b, hb, hturn⟩ := searchBlock_turn (x := x) fuel hs hse hen
      rw [hturn]
      have hm₁ : s ≤ (s + e) / 2 := by omega
      have hm₂ : (s + e) / 2 < e := by omega
      have hsplit := h.2 _ b hb
      generalize (s + e) / 2 = m at hm₁ hm₂ hb hsplit ⊢
      rcases Int.lt_trichotomy m p with hmp | hmp | hmp
      · have hlt : b.idx.logIndex < x := by
          obtain ⟨hm, rfl⟩ := List.getElem?_eq_some_iff.mp hb
          rw [← hp _ (List.getElem?_eq_getElem (by omega))]
          exact List.pairwise_iff_getElem.mp hsorted _ _ hm (by omega) (by omega)
        rw [if_pos hlt]
        exact ih (by omega) (by omega) hpe hen hend (by omega)
      · obtain rfl : x = b.idx.logIndex := by
          rw [hmp, Int.toNat_natCast] at hb
          exact (hp b hb).symm
        rw [if_neg (lt_irrefl _), if_neg (lt_irrefl _), hmp, Int.toNat_natCast]
        exact .inl rfl
      · have hgt : x < b.idx.logIndex := not_le.mp (mt hsplit.mp (by omega))
        rw [if_neg (not_lt.mpr hgt.le), if_pos hgt]
        exact ih hs hsp (by omega) (by omega) (.inr (by omega)) (by omega)
    · have hs' : s = p := by omega
      have he' : e = p := by omega
      refine .inr ⟨by omega, ?_⟩
      rw [searchBlock, if_neg hse, hs', he']

/-! ## `findBlock` -/

theorem blockEnd_last (hcount : f.m_blockCount = blocks.length) (hp : p + 1 = blocks.length) :
    f.blockEnd blocks p = some f.endLogIndex := if_pos (hp.trans hcount.symm)

theorem Split.blockEnd_gt (h : Split blocks x (p + 1)) (hcount : f.m_blockCount = blocks.length)
    (hp : p + 1 < blocks.length) : ∃ y, f.blockEnd blocks p = some y ∧ x < y := by
  have hc : blocks[p + 1]? = some blocks[p + 1] := List.getElem?_eq_getElem hp
  refine ⟨blocks[p + 1].idx.logIndex, ?_, not_le.mp (mt (h.2 _ _ hc).mp (Nat.lt_irrefl _))⟩
  rw [blockEnd, if_neg (by omega), hc]
  rfl

theorem blockEnd_isSome (hcount : f.m_blockCount = blocks.length) (hp : p < blocks.length) :
    ∃ y, f.blockEnd blocks p = some y := by
  by_cases hlast : p + 1 = blocks.length
  · exact ⟨_, blockEnd_last hcount hlast⟩
  · rw [blockEnd, if_neg (by omega), List.getElem?_eq_getElem (show p + 1 < blocks.length by omega)]
    exact ⟨_, rfl⟩

theorem findBlock_of_inr (hblocks : f.m_blocks = some blocks)
    (hcount : f.m_blockCount = blocks.length) (hpos : 0 < blocks.length)
    (hsearch : searchBlock blocks x (blocks.length + 1) 0 blocks.length = some (.inr (s, e)))
    (he : 0 ≤ e) (hp : (if s ≥ blocks.length then blocks.length - 1 else s.toNat) = p)
    {b : Block} (hb : blocks[p]? = some b) {y : LogIndexInfo} (hend : f.blockEnd blocks p = some y) :
    f.findBlock x = some (if b.idx.logIndex ≤ x ∧ y > x then some p else none) := by
  simp only [findBlock, hcount, hblocks, if_neg (show blocks.length ≠ 0 by omega), Option.bind_eq_bind,
    Option.bind_some, hsearch, if_neg (show ¬ e < 0 by omega), hp, hb, hend]
  rfl

theorem Split.findBlock_at (h : Split blocks x (p + 1)) (hblocks : f.m_blocks = some blocks)
    (hcount : f.m_blockCount = blocks.length)
    (hsorted : blocks.Pairwise fun b c => b.idx.logIndex < c.idx.logIndex)
    (hp : ∀ b, blocks[p]? = some b → b.idx.logIndex = x) : f.findBlock x = some (some p) := by
  have hlength := h.1
  have hb : blocks[p]? = some blocks[p] := List.getElem?_eq_getElem (by omega)
  rcases h.searchBlock_at (s := 0) (e := blocks.length) hp hsorted (by omega) (by omega)
    (by omega) (by omega) (.inl rfl)
    (show (blocks.length : Int) - 0 < ((blocks.length + 1 : Nat) : Int) by omega) with hsearch | ⟨hlt, hsearch⟩
  · simp only [findBlock, hcount, hblocks, if_neg (show blocks.length ≠ 0 by omega),
      Option.bind_eq_bind, Option.bind_some, hsearch]
    rfl
  · obtain ⟨y, hy, hxy⟩ := h.blockEnd_gt hcount hlt
    rw [findBlock_of_inr hblocks hcount (by omega) hsearch (by omega)
      (by rw [if_neg (by omega), Int.toNat_natCast]) hb hy, if_pos ⟨(hp _ hb).le, hxy⟩]

/-- An index at which no block begins is looked for in the block in front of it. -/
theorem Split.findBlock_between (h : Split blocks x k) (hblocks : f.m_blocks = some blocks)
    (hcount : f.m_blockCount = blocks.length) (hne : ∀ b ∈ blocks, b.idx.logIndex ≠ x) :
    f.findBlock x = some (if 0 < k ∧ Found f blocks x (k - 1) then some (k - 1) else none) := by
  have hlength := h.1
  have hno : ¬ ∃ b ∈ blocks, b.idx.logIndex = x := by simpa using hne
  by_cases hpos : blocks.length = 0
  · rw [findBlock, if_pos (by omega), if_neg (by omega)]
  obtain ⟨e, he, hsearch⟩ := h.searchBlock_between (s := 0) (e := blocks.length) hne (by omega)
    (by omega) (by omega) (by omega)
    (show ((blocks.length : Int) - 0).toNat < blocks.length + 1 by omega)
  rcases Nat.eq_zero_or_pos k with rfl | hk
  · rw [if_pos (.inl rfl)] at hsearch
    rw [if_neg (fun hand => Nat.lt_irrefl _ hand.1)]
    by_cases he' : e < 0
    · simp only [findBlock, hcount, hblocks, if_neg hpos, Option.bind_eq_bind, Option.bind_some,
        hsearch, if_pos he']
      rfl
    · obtain ⟨y, hy⟩ := blockEnd_isSome (p := 0) hcount (by omega)
      have hb : blocks[0]? = some blocks[0] := List.getElem?_eq_getElem (by omega)
      rw [findBlock_of_inr hblocks hcount (by omega) hsearch (by omega)
        (by rw [if_neg (by omega)]; rfl) hb hy, if_neg]
      exact fun hand => Nat.lt_irrefl _ ((h.2 _ _ hb).mp hand.1)
  · obtain ⟨p, rfl⟩ : ∃ p, k = p + 1 := ⟨k - 1, by omega⟩
    have hb : blocks[p]? = some blocks[p] := List.getElem?_eq_getElem (by omega)
    have hle := (h.2 _ _ hb).mpr (by omega)
    rw [show ((p + 1 : Nat) : Int) - 1 = p by omega] at hsearch
    rw [Nat.add_sub_cancel]
    by_cases hlast : p + 1 = blocks.length
    · -- both ends of the search lead to the last block
      have hfound : Found f blocks x p ↔ x < f.endLogIndex := by rw [Found, if_neg hno, if_pos hlast]
      rw [findBlock_of_inr hblocks hcount (by omega) hsearch (by omega)
        (by split <;> split <;> omega) hb (blockEnd_last hcount hlast)]
      simp [hle, hfound]
    · have hfound : Found f blocks x p ↔ probes p (blocks.length + 1) 0 blocks.length = false := by
        rw [Found, if_neg hno, if_neg hlast]
      simp only [hfound]
      cases hprobes : probes p (blocks.length + 1) 0 blocks.length with
      | true =>
        rw [hprobes, if_pos (.inr rfl)] at hsearch
        obtain ⟨y, hy⟩ := blockEnd_isSome (p := p + 1) hcount (by omega)
        have hc : blocks[p + 1]? = some blocks[p + 1] := List.getElem?_eq_getElem (by omega)
        rw [findBlock_of_inr hblocks hcount (by omega) hsearch (by omega)
          (by rw [if_neg (by omega), Int.toNat_natCast]) hc hy, if_neg, if_neg (by simp)]
        exact fun hand => Nat.lt_irrefl _ ((h.2 _ _ hc).mp hand.1)
      | false =>
        rw [hprobes, if_neg (by simp; omega)] at hsearch
        obtain ⟨y, hy, hxy⟩ := h.blockEnd_gt hcount (by omega)
        rw [findBlock_of_inr hblocks hcount (by omega) hsearch (by omega)
          (by rw [if_neg (by omega), Int.toNat_natCast]) hb hy, if_pos ⟨hle, hxy⟩,
          if_pos ⟨Nat.succ_pos _, rfl⟩]

theorem findBlock_eq (hblocks : f.m_blocks = some blocks) (hcount : f.m_blockCount = blocks.length)
    (hsorted : blocks.Pairwise fun b c => b.idx.logIndex < c.idx.logIndex) (x : LogIndexInfo) :
    ∃ r, f.findBlock x = some r ∧ ∀ p, r = some p ↔ Containing blocks x p ∧ Found f blocks x p := by
  obtain ⟨k, h⟩ := exists_split hsorted x
  simp only [h.containing_iff hsorted]
  by_cases hat : ∃ b ∈ blocks, b.idx.logIndex = x
  · obtain ⟨b, hb, rfl⟩ := hat
    obtain ⟨p, hp, rfl⟩ := List.getElem_of_mem hb
    have hget : blocks[p]? = some blocks[p] := List.getElem?_eq_getElem hp
    have hk : k = p + 1 := (((h.containing_iff hsorted).mp ⟨_, hget, le_refl _, fun _ _ hle => hle⟩)).symm
    subst hk
    refine ⟨some p, h.findBlock_at hblocks hcount hsorted ?_, ?_⟩
    · intro b hb
      rw [Option.some.inj (hget.symm.trans hb)]
    · intro q
      rw [Found, if_pos ⟨_, List.getElem_mem hp, rfl⟩, and_true, Option.some.injEq]
      omega
  · have hne : ∀ b ∈ blocks, b.idx.logIndex ≠ x := by simpa using hat
    refine ⟨_, h.findBlock_between hblocks hcount hne, ?_⟩
    intro q
    constructor
    · intro heq
      split at heq
      · rename_i hand
        obtain rfl : k - 1 = q := Option.some.inj heq
        exact ⟨by omega, hand.2⟩
      · cases heq
    · rintro ⟨rfl, hfound⟩
      rw [if_pos ⟨Nat.succ_pos _, by rwa [Nat.add_sub_cancel]⟩, Nat.add_sub_cancel]

/-! ## The block that contains a log index -/

private theorem lt_endLogIndex_le (h : x < f.endLogIndex) : x ≤ f.m_logIndex := by
  simp only [endLogIndex, LogIndexInfo.lt_def, LogIndexInfo.le_def] at h ⊢
  omega

/-- The block that contains `x` is one that `findBlock` answers rightly for: nothing but the first
    index of a block is found behind the last index, and up to it the block is found. -/
def Answered (f : LogFile) (blocks : List Block) (x : LogIndexInfo) (p : Nat) : Prop :=
  if ∃ b ∈ blocks, b.idx.logIndex = x then x ≤ f.m_logIndex
  else if p + 1 = blocks.length then x ≤ f.m_logIndex → x < f.endLogIndex
  else probes p (blocks.length + 1) 0 blocks.length = false ↔ x ≤ f.m_logIndex

theorem answered_iff : Answered f blocks x p ↔ (Found f blocks x p ↔ x ≤ f.m_logIndex) := by
  rw [Answered, Found]
  split
  · rw [true_iff]
  · split
    · exact ⟨fun h => ⟨lt_endLogIndex_le, h⟩, fun h => h.mpr⟩
    · exact Iff.rfl

/-- `findBlock` finds the containing block exactly if the index is the first one of a block, or
    falls into the last block, or into one that the halving does not look at. -/
theorem findBlock_containing_iff (hblocks : f.m_blocks = some blocks)
    (hcount : f.m_blockCount = blocks.length)
    (hsorted : blocks.Pairwise fun b c => b.idx.logIndex < c.idx.logIndex) (x : LogIndexInfo) :
    (∃ r, f.findBlock x = some r ∧ ∀ p, r = some p ↔ Containing blocks x p ∧ x ≤ f.m_logIndex) ↔
      ∀ p, Containing blocks x p → Answered f blocks x p := by
  obtain ⟨r, hfind, hr⟩ := findBlock_eq hblocks hcount hsorted x
  simp only [answered_iff, hfind]
  constructor
  · rintro ⟨r', hr', h⟩ p hp
    obtain rfl := Option.some.inj hr'
    constructor
    · intro hfound
      exact ((h p).mp ((hr p).mpr ⟨hp, hfound⟩)).2
    · intro hle
      exact ((hr p).mp ((h p).mpr ⟨hp, hle⟩)).2
  · intro h
    refine ⟨r, rfl, fun p => ?_⟩
    rw [hr p]
    exact and_congr_right fun hp => h p hp

def threeBlocks : List Block :=
  [1, 3, 5].map fun i =>
    { idx := ⟨HEAD_SIZE + (i - 1) * 22, ⟨1, i⟩⟩, data := none, volumn := 44, size := 44,
      writedSize := 44, next := none }

def threeBlockFile : LogFile :=
  { create 1 ⟨1, 0⟩ ⟨1, 1⟩ with
    m_offset := HEAD_SIZE + 132
    m_blockCount := 3
    m_logIndex := ⟨1, 6⟩
    m_blocks := some threeBlocks
    m_currentBlock := some 2 }

theorem threeBlocks_sorted :
    threeBlocks.Pairwise fun b c => b.idx.logIndex < c.idx.logIndex := by decide

/-- The block of the log indexes 3 and 4 is the first one looked at, and 4 is not found. -/
theorem findBlock_inner_missed :
    Containing threeBlocks ⟨1, 4⟩ 1 ∧ ⟨1, 4⟩ ≤ threeBlockFile.m_logIndex ∧
      threeBlockFile.findBlock ⟨1, 4⟩ = some none :=
  ⟨⟨_, rfl, by decide⟩, by decide⟩

theorem findBlock_containing_iff_first :
    (∃ r, threeBlockFile.findBlock ⟨1, 2⟩ = some r ∧
      ∀ p, r = some p ↔ Containing threeBlocks ⟨1, 2⟩ p ∧ ⟨1, 2⟩ ≤ threeBlockFile.m_logIndex) ↔
      ∀ p, Containing threeBlocks ⟨1, 2⟩ p → Answered threeBlockFile threeBlocks ⟨1, 2⟩ p :=
  findBlock_containing_iff rfl rfl threeBlocks_sorted ⟨1, 2⟩

end DBStream.Native.CLUSTER.LogFile
