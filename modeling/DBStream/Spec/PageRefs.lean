import DBStream.Native.PageReader
import DBStream.Spec.ScanCorrect

/-!
# Page reference counts

`page::use` looks for a value above 0 *before* its addition, so the first use of a page adds 2,
and the use that `solidBlockIterator::value` makes besides `getPage` is never given back.  A page
that has once been asked for keeps a count of at least one more than its holders (`Counted`):
it is never freed under a reader, and never again free for `freeWhenNoUser`.

An operation asks for a page if it cannot do without one: it stops when it is run with
`noPages`, where every `value` fails.  `Agrees` compares the two runs.
-/

namespace DBStream.Native

/-! ## One page -/

theorem PageRef.use_ref {p : PageRef} (h : 0 ≤ p._ref.m_ref) :
    p.use._ref.m_ref = if p._ref.m_ref = 0 then 2 else p._ref.m_ref + 1 := by
  unfold PageRef.use
  by_cases hzero : p._ref.m_ref = 0
  · -- the first try sees 0, the second 1
    simp [PageRef.useLoop, Ref.use, hzero]
  · have hpos : 0 < p._ref.m_ref := by omega
    simp [PageRef.useLoop, Ref.use, hzero, hpos]

theorem PageRef.unuse_ref {p : PageRef} (h : 2 ≤ p._ref.m_ref) :
    p.unuse._ref.m_ref = p._ref.m_ref - 1 := by
  have h₁ : ¬p._ref.m_ref = 1 := by omega
  have h₂ : ¬p._ref.m_ref - 1 = 0 := by omega
  have h₃ : ¬p._ref.m_ref - 1 < 0 := by omega
  have h₄ : ¬p._ref.m_ref < 0 := by omega
  unfold PageRef.unuse
  by_cases hlru : p.lru = true
  · simp [hlru, Ref.unuseForLru, h₁, h₂, h₃]
  · simp [hlru, Ref.unuse, h₄]

theorem PageRef.freeWhenNoUser_iff (p : PageRef) :
    p.freeWhenNoUser.1 = true ↔ p._ref.m_ref = 0 := by
  unfold PageRef.freeWhenNoUser Ref.tryUnuseIfZero
  by_cases hzero : p._ref.m_ref = 0
  · simp [hzero]
  · simp [hzero]

/-! ## All pages -/

def PageTable.ref (t : PageTable) (key : Nat × Nat) : Int := (t.page key)._ref.m_ref

/-- A page nobody has asked for has the count 0, every other at least one more than its holders. -/
def Counted (t : PageTable) (holds : Nat × Nat → Nat) : Prop :=
  ∀ key, (t.ref key = 0 ∧ holds key = 0) ∨ 1 + (holds key : Int) ≤ t.ref key

/-- Pages that have been asked for stay so. -/
def Grows (t t' : PageTable) : Prop := ∀ key, 1 ≤ t.ref key → 1 ≤ t'.ref key

def PageTable.Touched (t : PageTable) : Prop := ∃ key, 1 ≤ t.ref key

def also (key : Nat × Nat) (holds : Nat × Nat → Nat) : Nat × Nat → Nat :=
  fun k => holds k + if k = key then 1 else 0

/-- How often the cache of an iterator over `b` holds a page. -/
def PageCache.holds (c : PageCache) (b : SolidBlock) : Nat × Nat → Nat :=
  fun key => if key.1 = b.head.m_blockID then c.slots.count (some key.2) else 0

/-- How often one slot of it does. -/
def slotHolds (b : SolidBlock) (slot : Option Nat) : Nat × Nat → Nat :=
  fun key => if key.1 = b.head.m_blockID ∧ slot = some key.2 then 1 else 0

section

variable {D : Disk} {t t' : PageTable} {holds : Nat × Nat → Nat} {key : Nat × Nat}

theorem Grows.refl (t : PageTable) : Grows t t := fun _ h => h

theorem Grows.trans {t₁ t₂ t₃ : PageTable} (h₁ : Grows t₁ t₂) (h₂ : Grows t₂ t₃) : Grows t₁ t₃ :=
  fun key h => h₂ key (h₁ key h)

theorem PageTable.Touched.grows (h : t.Touched) (hg : Grows t t') : t'.Touched := by
  obtain ⟨key, hkey⟩ := h
  exact ⟨key, hg key hkey⟩

@[simp] theorem PageTable.ref_put (t : PageTable) (key k : Nat × Nat) (p : PageRef) :
    (t.put key p).ref k = if k = key then p._ref.m_ref else t.ref k := by
  unfold PageTable.put PageTable.ref
  by_cases hk : k = key
  · simp [hk]
  · simp [hk]

theorem PageTable.page_put_self (t : PageTable) (key : Nat × Nat) (p : PageRef) :
    (t.put key p).page key = p := if_pos rfl

theorem Counted.nonneg (h : Counted t holds) (key : Nat × Nat) : 0 ≤ t.ref key := by
  obtain ⟨h₀, -⟩ | h₁ := h key
  · omega
  · omega

theorem Counted.pos (h : Counted t holds) (hkey : 0 < holds key) : 0 < t.ref key := by
  obtain ⟨-, h₀⟩ | h₁ := h key
  · omega
  · omega

theorem Counted.mono {holds' : Nat × Nat → Nat} (h : Counted t holds)
    (hle : ∀ key, holds' key ≤ holds key) : Counted t holds' := by
  intro key
  have := hle key
  obtain ⟨h₀, h₀'⟩ | h₁ := h key
  · left
    omega
  · right
    omega

theorem Counted.use (h : Counted t holds) (key : Nat × Nat) :
    Counted (t.use key) (also key holds) ∧ Grows t (t.use key) ∧ 1 ≤ (t.use key).ref key := by
  have huse : (t.page key).use._ref.m_ref = if t.ref key = 0 then 2 else t.ref key + 1 :=
    PageRef.use_ref (h.nonneg key)
  unfold PageTable.use
  refine ⟨?_, ?_, ?_⟩
  · intro k
    by_cases hk : k = key
    · subst hk
      right
      simp only [PageTable.ref_put, if_true, huse, also]
      obtain ⟨h₀, h₀'⟩ | h₁ := h k
      · simp [h₀, h₀']
      · split <;> omega
    · simpa [also, hk] using h k
  · intro k hk
    by_cases hkey : k = key
    · subst hkey
      simp only [PageTable.ref_put, if_true, huse]
      split <;> omega
    · simpa [hkey] using hk
  · have := h.nonneg key
    simp only [PageTable.ref_put, if_true, huse]
    split <;> omega

theorem Counted.unuse (h : Counted t (also key holds)) :
    Counted (t.unuse key) holds ∧ Grows t (t.unuse key) := by
  have hge : 2 + (holds key : Int) ≤ t.ref key := by
    obtain ⟨-, h₀⟩ | h₁ := h key
    · simp [also] at h₀
    · simp only [also, if_true] at h₁
      omega
  have hunuse : (t.page key).unuse._ref.m_ref = t.ref key - 1 :=
    PageRef.unuse_ref (show 2 ≤ t.ref key by omega)
  unfold PageTable.unuse
  constructor
  · intro k
    by_cases hk : k = key
    · subst hk
      simp only [PageTable.ref_put, if_true, hunuse]
      omega
    · simpa [also, hk] using h k
  · intro k hk
    by_cases hkey : k = key
    · subst hkey
      simp only [PageTable.ref_put, if_true, hunuse]
      omega
    · simpa [hkey] using hk

theorem Counted.congr (h : Counted t holds) (href : ∀ k, t'.ref k = t.ref k) : Counted t' holds := by
  intro k
  rw [href]
  exact h k

theorem Grows.congr {t₁ : PageTable} (h : Grows t t₁) (href : ∀ k, t'.ref k = t₁.ref k) :
    Grows t t' := by
  intro k hk
  rw [href]
  exact h k hk

/-- `getPage` answers a page with one holder more, or leaves it with the same ones; it has asked for
    the page in either case. -/
theorem Counted.getPage (h : Counted t holds) {b : SolidBlock} {pageId : Nat} {ok : Bool}
    (hget : t.getPage D b pageId = .ok (ok, t')) :
    Counted t' (if ok then also (b.pageKey pageId) holds else holds) ∧ Grows t t' ∧
      1 ≤ t'.ref (b.pageKey pageId) := by
  obtain ⟨_, -, hget⟩ := Exec.of_bind hget
  obtain ⟨hused, hgrows, hone⟩ := h.use (b.pageKey pageId)
  generalize b.pageKey pageId = key at *
  by_cases hloaded : ((t.use key).page key).loaded = true
  · rw [if_pos hloaded] at hget
    cases hget
    exact ⟨hused, hgrows, hone⟩
  rw [if_neg hloaded] at hget
  -- `own` turns the sign of the count, `share` turns it back
  have hown : ((t.use key).page key)._ref.own = (true, { m_ref := -(t.use key).ref key }) := by
    unfold Ref.own
    rw [if_neg (by show ¬(t.use key).ref key < 0; omega)]
    rfl
  have hshare : Ref.share { m_ref := -(t.use key).ref key } =
      (true, { m_ref := (t.use key).ref key }) := by
    unfold Ref.share
    rw [if_pos (by show -(t.use key).ref key < 0; omega), Int.neg_neg]
  simp only [hown, hshare, if_true] at hget
  have hsame : ∀ (n : Nat) (p : PageRef), p._ref.m_ref = (t.use key).ref key → ∀ k,
      ({ t.use key with loads := n }.put key p).ref k = (t.use key).ref k := by
    intro n p hp k
    rw [PageTable.ref_put]
    split
    · rename_i hk
      rw [hk, hp]
    · rfl
  split at hget
  · cases hget
    have href := hsame ((t.use key).loads + 1) { (t.use key).page key with
      _ref := { m_ref := (t.use key).ref key }
      loaded := true } rfl
    refine ⟨hused.congr href, hgrows.congr href, ?_⟩
    rw [href]
    exact hone
  · -- the load fails: the use is given back
    cases hget
    have href := hsame ((t.use key).loads + 1) { (t.use key).page key with
      _ref := { m_ref := (t.use key).ref key } } rfl
    obtain ⟨hback, hgrows'⟩ := (hused.congr href).unuse
    have hput : ∀ (t : PageTable) (p : PageRef) (k : Nat × Nat),
        (t.put key p.unuse).ref k = ((t.put key p).unuse key).ref k := by
      intro t p k
      unfold PageTable.unuse
      by_cases hk : k = key
      · simp [hk, PageTable.page_put_self]
      · simp [hk]
    refine ⟨hback.congr (hput _ _), (hgrows.trans ?_).congr (hput _ _), ?_⟩
    · exact Grows.trans ((Grows.refl _).congr href) hgrows'
    · rw [hput]
      exact hgrows' key (by rw [href]; exact hone)

/-! ## The cache of an iterator -/

theorem PageCache.holds_empty (b : SolidBlock) (key : Nat × Nat) :
    PageCache.empty.holds b key = 0 := by
  unfold PageCache.holds PageCache.empty
  split
  · rw [List.count_replicate]
    rfl
  · rfl

theorem PageCache.holds_set (c : PageCache) (b : SolidBlock) (pageId : Nat) (x : Option Nat)
    (key : Nat × Nat) :
    (c.set pageId x).holds b key + slotHolds b (c.get pageId) key =
      c.holds b key + slotHolds b x key := by
  unfold PageCache.holds slotHolds
  by_cases hblock : key.1 = b.head.m_blockID
  swap
  · simp [hblock]
  have hlt : pageId % 16 < c.slots.length := by
    rw [c.size]
    omega
  have hcount : (c.set pageId x).slots.count (some key.2) =
      c.slots.count (some key.2) - (if c.get pageId = some key.2 then 1 else 0) +
        (if x = some key.2 then 1 else 0) := by
    show (c.slots.set (pageId % 16) x).count (some key.2) = _
    rw [List.count_set hlt]
    simp only [beq_iff_eq]
    rfl
  have hle : c.get pageId = some key.2 → 1 ≤ c.slots.count (some key.2) := by
    intro hget
    rw [← hget]
    exact List.count_pos_iff.mpr (List.getElem_mem hlt)
  rw [if_pos hblock, if_pos hblock, hcount]
  by_cases hget : c.get pageId = some key.2
  · have := hle hget
    simp only [hblock, hget, true_and, if_true]
    omega
  · simp only [hblock, hget, true_and, if_false]
    omega

theorem slotHolds_none (b : SolidBlock) (key : Nat × Nat) : slotHolds b none key = 0 := by
  simp [slotHolds]

theorem slotHolds_some (b : SolidBlock) (pageId : Nat) (key : Nat × Nat) :
    slotHolds b (some pageId) key = if key = b.pageKey pageId then 1 else 0 := by
  obtain ⟨block, page⟩ := key
  simp [slotHolds, SolidBlock.pageKey, eq_comm]

variable {b : SolidBlock} {others : Nat × Nat → Nat} {s s' : IterPages}

theorem Counted.fill {pageId : Nat}
    (h : Counted s.table fun k => others k + (s.cache.set pageId none).holds b k) {ok : Bool}
    (hfill : IterPages.fill D b pageId s = .ok (ok, s')) :
    Counted s'.table (fun k => others k + s'.cache.holds b k) ∧ Grows s.table s'.table ∧
      s'.table.Touched := by
  obtain ⟨⟨got, t'⟩, hget, hfill⟩ := Exec.of_bind hfill
  obtain ⟨hcounted, hgrows, hone⟩ := h.getPage hget
  cases got with
  | false =>
    cases hfill
    exact ⟨hcounted, hgrows, _, hone⟩
  | true =>
    cases hfill
    obtain ⟨hused, hgrows', hone'⟩ := hcounted.use (b.pageKey pageId)
    refine ⟨hused.mono ?_, hgrows.trans hgrows', _, hone'⟩
    intro key
    have hnone := s.cache.holds_set b pageId none key
    have hsome := s.cache.holds_set b pageId (some pageId) key
    simp only [slotHolds_none, slotHolds_some] at hnone hsome
    simp only [also, if_true]
    omega

/-- `value` keeps the counts, with the pages that its cache has then. -/
theorem Counted.value (h : Counted s.table fun k => others k + s.cache.holds b k) {rid : Nat}
    {record : Option (List UInt8)} (hvalue : IterPages.value D b rid s = .ok (record, s')) :
    Counted s'.table (fun k => others k + s'.cache.holds b k) ∧ Grows s.table s'.table ∧
      s'.table.Touched := by
  obtain ⟨info, -, hvalue⟩ := Exec.of_bind hvalue
  generalize RecordPosition.pageId info.offset = pageId at hvalue
  cases hslot : s.cache.get pageId with
  | none =>
    simp only [hslot] at hvalue
    obtain ⟨⟨ok, s₁⟩, hfill, hvalue⟩ := Exec.of_bind hvalue
    cases hvalue
    refine Counted.fill (h.mono ?_) hfill
    intro key
    have hset := s.cache.holds_set b pageId none key
    simp only [hslot, slotHolds_none] at hset
    omega
  | some cached =>
    simp only [hslot] at hvalue
    -- the slot holds its page once
    have hset : ∀ key, s.cache.holds b key =
        (s.cache.set pageId none).holds b key + if key = b.pageKey cached then 1 else 0 := by
      intro key
      have hset := s.cache.holds_set b pageId none key
      simp only [hslot, slotHolds_none, slotHolds_some] at hset
      omega
    split at hvalue
    · -- a hit
      cases hvalue
      refine ⟨h, Grows.refl _, b.pageKey cached, ?_⟩
      have hheld : 0 < others (b.pageKey cached) + s.cache.holds b (b.pageKey cached) := by
        have := hset (b.pageKey cached)
        simp only [if_true] at this
        omega
      have := h.pos hheld
      omega
    · obtain ⟨⟨ok, s₁⟩, hfill, hvalue⟩ := Exec.of_bind hvalue
      cases hvalue
      have hheld : Counted s.table (also (b.pageKey cached)
          fun k => others k + (s.cache.set pageId none).holds b k) := by
        apply h.mono
        intro key
        have := hset key
        simp only [also]
        omega
      obtain ⟨hunused, hgrows⟩ := hheld.unuse
      obtain ⟨hcounted, hgrows', htouched⟩ := Counted.fill hunused hfill
      exact ⟨hcounted, hgrows.trans hgrows', htouched⟩

def unuseSlot (b : SolidBlock) (t : PageTable) : Option Nat → PageTable
  | some pageId => t.unuse (b.pageKey pageId)
  | none => t

theorem Counted.unuseSlots {slots : List (Option Nat)} {t : PageTable}
    (h : Counted t fun k => others k +
      if k.1 = b.head.m_blockID then slots.count (some k.2) else 0) :
    Counted (slots.foldl (unuseSlot b) t) others ∧ Grows t (slots.foldl (unuseSlot b) t) := by
  induction slots generalizing t with
  | nil => exact ⟨h.mono fun key => by simp, Grows.refl t⟩
  | cons slot slots ih =>
    cases slot with
    | none =>
      apply ih
      apply h.mono
      intro key
      simp
    | some pageId =>
      have hheld : Counted t (also (b.pageKey pageId) fun k => others k +
          if k.1 = b.head.m_blockID then slots.count (some k.2) else 0) := by
        apply h.mono
        intro key
        have hslot := slotHolds_some b pageId key
        simp only [slotHolds] at hslot
        simp only [also, ← hslot, List.count_cons]
        by_cases hblock : key.1 = b.head.m_blockID
        · simp [hblock]
          omega
        · simp [hblock]
      obtain ⟨hunused, hgrows⟩ := hheld.unuse
      obtain ⟨hrest, hgrows'⟩ := ih hunused
      exact ⟨hrest, hgrows.trans hgrows'⟩

theorem Counted.clear (h : Counted s.table fun k => others k + s.cache.holds b k) :
    Counted (s.clear b).table others ∧ Grows s.table (s.clear b).table :=
  Counted.unuseSlots h

end

/-! ## With pages and without -/

section

variable {σ : Type} (P : PageReader σ) (b : SolidBlock)

/-- At least one record of the block was read on the way from `s` to `s'`. -/
def Asks : σ → σ → Prop :=
  Relation.TransGen fun s s' => ∃ i record, P.value b i s = .ok (record, s')

/-- `x` is a computation of an iterator with `noPages` and `y` the same one with `P`, from `s`.
    Without pages it comes to the same end, or it fails and the other one asks for a page.
    `mk₀` and `mk` put a result together. -/
def Agrees {γ τ₀ τ : Type} (mk₀ : γ → τ₀) (mk : γ → σ → τ) (s : σ) (x : Exec τ₀) (y : Exec τ) :
    Prop :=
  (∃ g, x = .ok (mk₀ g) ∧ y = .ok (mk g s)) ∨
  ((∀ v, x ≠ .ok v) ∧ ∀ v, y = .ok v → ∃ g s', v = mk g s' ∧ Asks P b s s')

/-- `Agrees` for results with one part besides the pages. -/
abbrev Agrees₁ {α : Type} := Agrees P b (fun a : α => (a, ())) fun a s => (a, s)

/-- `Agrees` for results with two. -/
abbrev Agrees₂ {α β : Type} :=
  Agrees P b (fun g : α × β => (g.1, g.2, ())) fun g s => (g.1, g.2, s)

variable {P b} {γ γ' τ₀ τ τ₀' τ' : Type} {mk₀ : γ → τ₀} {mk : γ → σ → τ} {mk₀' : γ' → τ₀'}
  {mk' : γ' → σ → τ'} {s : σ}

theorem Agrees.ok (g : γ) : Agrees P b mk₀ mk s (.ok (mk₀ g)) (.ok (mk g s)) :=
  .inl ⟨g, rfl, rfl⟩

theorem Agrees.error (e : Fault) : Agrees P b mk₀ mk s (.error e) (.error e) :=
  .inr ⟨fun _ h => (nomatch h), fun _ h => (nomatch h)⟩

theorem Agrees.bind_same {α : Type} {z : Exec α} {f : α → Exec τ₀} {k : α → Exec τ}
    (h : ∀ a, Agrees P b mk₀ mk s (f a) (k a)) : Agrees P b mk₀ mk s (z >>= f) (z >>= k) := by
  cases z with
  | error e => exact Agrees.error e
  | ok a => exact h a

theorem Agrees.bind {x : Exec τ₀} {y : Exec τ} {f : τ₀ → Exec τ₀'} {k : τ → Exec τ'}
    (h : Agrees P b mk₀ mk s x y)
    (hf : ∀ g s', Agrees P b mk₀' mk' s' (f (mk₀ g)) (k (mk g s'))) :
    Agrees P b mk₀' mk' s (x >>= f) (y >>= k) := by
  obtain ⟨g, rfl, rfl⟩ | ⟨hx, hy⟩ := h
  · exact hf g s
  · right
    constructor
    · intro v hv
      obtain ⟨w, hw, -⟩ := Exec.of_bind hv
      exact hx w hw
    · intro v hv
      obtain ⟨w, hw, hk⟩ := Exec.of_bind hv
      obtain ⟨g, s', rfl, hasks⟩ := hy w hw
      -- what follows may ask for more
      obtain ⟨g', -, hk'⟩ | ⟨-, hmore⟩ := hf g s'
      · rw [hk'] at hk
        cases hk
        exact ⟨g', s', rfl, hasks⟩
      · obtain ⟨g', s'', rfl, hasks'⟩ := hmore v hk
        exact ⟨g', s'', rfl, hasks.trans hasks'⟩

variable (P b) (filter : Option Filter) (flag : Nat)

theorem agrees_filterCurrentSeekRecord (it : SolidBlockIterator) (s : σ) :
    Agrees₂ P b s (SolidBlockIterator.filterCurrentSeekRecord noPages b filter it ())
      (SolidBlockIterator.filterCurrentSeekRecord P b filter it s) := by
  cases filter with
  | none => exact Agrees.ok ((0 : Int), it)
  | some f =>
    apply Agrees.bind_same
    intro info
    apply Agrees.bind_same
    intro table
    split
    · split
      · exact Agrees.ok ((0 : Int), it)
      · -- the record is read here
        right
        constructor
        · intro v hv
          cases hv
        · intro v hv
          obtain ⟨⟨record, s'⟩, hvalue, hv⟩ := Exec.of_bind hv
          have hasks : Asks P b s s' := .single ⟨_, record, hvalue⟩
          cases record with
          | none =>
            cases hv
            exact ⟨(_, _), s', rfl, hasks⟩
          | some d =>
            cases hv
            exact ⟨(_, _), s', rfl, hasks⟩
    · exact Agrees.ok ((1 : Int), it)

theorem agrees_nextLoop (fuel : Nat) (it : SolidBlockIterator) (s : σ) :
    Agrees₂ P b s (SolidBlockIterator.nextLoop noPages b flag filter fuel it ())
      (SolidBlockIterator.nextLoop P b flag filter fuel it s) := by
  induction fuel generalizing it s with
  | zero => exact Agrees.error _
  | succ fuel ih =>
    unfold SolidBlockIterator.nextLoop
    generalize SolidBlockIterator.advance b flag it = a
    obtain ⟨more, it⟩ := a
    cases more with
    | false => exact Agrees.ok (IterStatus.ENDED, { it with m_status := .ENDED })
    | true =>
      apply (agrees_filterCurrentSeekRecord P b filter it s).bind
      intro g s'
      obtain ⟨r, it⟩ := g
      by_cases hr : r = 0
      · simp only [hr, if_true]
        exact Agrees.ok (IterStatus.OK, { it with
          m_recordId := it.m_seekedId
          m_realRecordId := it.m_seekedId + b.head.m_minRecordId })
      · simp only [hr, if_false]
        by_cases hst : it.m_status = .INVALID
        · simp only [hst, if_true]
          exact Agrees.ok (IterStatus.INVALID, it)
        · simp only [hst, if_false]
          exact ih it s'

theorem agrees_next (it : SolidBlockIterator) (s : σ) :
    Agrees₂ P b s (SolidBlockIterator.next noPages b flag filter it ())
      (SolidBlockIterator.next P b flag filter it s) :=
  agrees_nextLoop P b filter flag _ it s

theorem agrees_begin (it : SolidBlockIterator) (s : σ) :
    Agrees₁ P b s (SolidBlockIterator.begin noPages b flag filter it ())
      (SolidBlockIterator.begin P b flag filter it s) := by
  apply (agrees_filterCurrentSeekRecord P b filter _ s).bind
  intro g s'
  obtain ⟨r, it⟩ := g
  by_cases hr : r = 0
  · simp only [hr, ne_eq, not_true_eq_false, if_false]
    exact Agrees.ok { it with m_status := .OK }
  · simp only [hr, ne_eq, not_false_eq_true, if_true]
    by_cases hst : it.m_status = .INVALID
    · simp only [hst, if_true]
      apply (agrees_next P b filter flag it s').bind
      intro g s''
      exact Agrees.ok { g.2 with m_status := g.1 }
    · simp only [hst, if_false]
      exact Agrees.ok it

theorem agrees_seekTo (m : Nat) (it : SolidBlockIterator) (s : σ) :
    Agrees₂ P b s (SolidBlockIterator.seekTo noPages b flag filter m it ())
      (SolidBlockIterator.seekTo P b flag filter m it s) := by
  apply (agrees_filterCurrentSeekRecord P b filter _ s).bind
  intro g s'
  obtain ⟨r, it⟩ := g
  by_cases hr : r = 0
  · simp only [hr, ne_eq, not_true_eq_false, if_false]
    exact Agrees.ok (true, { it with m_status := .OK })
  · simp only [hr, ne_eq, not_false_eq_true, if_true]
    by_cases hst : it.m_status = .INVALID
    · simp only [hst, if_true]
      exact Agrees.ok (false, it)
    · simp only [hst, if_false]
      apply (agrees_next P b filter flag it s').bind
      intro g s''
      by_cases hok : g.1 = .OK
      · simp only [hok, if_true]
        exact Agrees.ok (true, { g.2 with m_status := .OK })
      · simp only [hok, if_false]
        exact Agrees.ok (false, { g.2 with m_recordId := 0xfffffffe })

theorem agrees_seekTimeLoop (found : Nat → Bool) (fuel : Nat) (it : SolidBlockIterator) (s : σ) :
    Agrees₂ P b s (SolidBlockIterator.seekTimeLoop noPages b flag filter found fuel it ())
      (SolidBlockIterator.seekTimeLoop P b flag filter found fuel it s) := by
  induction fuel generalizing it s with
  | zero => exact Agrees.error _
  | succ fuel ih =>
    apply (agrees_next P b filter flag it s).bind
    intro g s'
    by_cases hok : g.1 = .OK
    · simp only [hok, if_true]
      apply Agrees.bind_same
      intro info
      cases found info.timestamp with
      | true => exact Agrees.ok (true, { g.2 with m_status := .OK })
      | false => exact ih g.2 s'
    · simp only [hok, if_false]
      exact Agrees.ok (false, g.2)

private theorem agrees_seekTimestamp (timestamp : Nat) (it : SolidBlockIterator) (s : σ) :
    Agrees₂ P b s (SolidBlockIterator.seekTimestamp noPages b flag filter timestamp it ())
      (SolidBlockIterator.seekTimestamp P b flag filter timestamp it s) := by
  unfold SolidBlockIterator.seekTimestamp
  split
  · exact Agrees.ok (false, { it with m_status := .UNINIT })
  · exact agrees_seekTimeLoop P b filter flag _ _ _ s

theorem agrees_seekCheckpoint (logOffset : Nat) (it : SolidBlockIterator) (s : σ) :
    Agrees₂ P b s (SolidBlockIterator.seekCheckpoint noPages b flag filter logOffset it ())
      (SolidBlockIterator.seekCheckpoint P b flag filter logOffset it s) := by
  have hno : ∀ it : SolidBlockIterator,
      Agrees₂ P b s (.ok (false, it, ())) (.ok (false, it, s)) := fun it => Agrees.ok (false, it)
  unfold SolidBlockIterator.seekCheckpoint
  split
  · exact hno _
  apply Agrees.bind_same
  intro ⟨found, m, lo, hi⟩
  cases found with
  | true => exact agrees_seekTo P b filter flag _ _ s
  | false =>
    simp only [Bool.false_eq_true, if_false]
    generalize (if (b.head.m_recordCount : Int) - 1 < lo then (b.head.m_recordCount : Int) - 1
      else if hi < 0 then 0 else m) = m'
    apply Agrees.bind_same
    intro offset
    -- at the probe, or beside it
    by_cases hflag : increase flag = true
    · simp only [hflag, if_true]
      split
      · split
        · exact hno _
        · exact agrees_seekTo P b filter flag _ _ s
      · exact agrees_seekTo P b filter flag _ _ s
    · simp only [hflag, Bool.false_eq_true, if_false]
      split
      · split
        · exact hno _
        · exact agrees_seekTo P b filter flag _ _ s
      · exact agrees_seekTo P b filter flag _ _ s

private theorem agrees_seekRecordId (recordId : Nat) (it : SolidBlockIterator) (s : σ) :
    Agrees₂ P b s (SolidBlockIterator.seekRecordId noPages b flag filter recordId it ())
      (SolidBlockIterator.seekRecordId P b flag filter recordId it s) := by
  unfold SolidBlockIterator.seekRecordId
  split
  · exact Agrees.ok (false, { it with m_status := .UNINIT })
  · exact agrees_seekTo P b filter flag _ _ s

/-- An operation of an iterator that gets by without pages leaves them alone; another one asks for
    one of them, if it comes to an end. -/
theorem agrees_run (op : IterOp) (it : SolidBlockIterator) (s : σ) :
    Agrees₁ P b s (op.run noPages b flag filter it ()) (op.run P b flag filter it s) := by
  have hret : ∀ {α : Type} (g : α × SolidBlockIterator) (s' : σ),
      Agrees₁ P b s' (.ok (g.2, ())) (.ok (g.2, s')) := fun g s' => Agrees.ok g.2
  cases op with
  | next =>
    apply (agrees_next P b filter flag it s).bind
    exact hret
  | seekTimestamp timestamp =>
    apply (agrees_seekTimestamp P b filter flag timestamp it s).bind
    exact hret
  | seekCheckpoint logOffset =>
    apply (agrees_seekCheckpoint P b filter flag logOffset it s).bind
    exact hret
  | seekRecordId recordId =>
    apply (agrees_seekRecordId P b filter flag recordId it s).bind
    exact hret

end

/-! ## What an operation does to the counts -/

/-- From `t` with the holders `holds` to `t'` with `holds'`: the counts stay right, and if the
    operation is not `quiet` it has asked for a page. -/
structure Effect (t t' : PageTable) (holds holds' : Nat × Nat → Nat) (quiet : Prop) : Prop where
  counted : Counted t' holds'
  grows : Grows t t'
  asked : ¬quiet → t'.Touched
  quiet : quiet → (∀ key, t.ref key = 0) → ∀ key, t'.ref key = 0

section

variable {D : Disk} {t t' : PageTable} {others : Nat × Nat → Nat} {b : SolidBlock}
  {s s' : IterPages}

theorem Counted.asks (h : Counted s.table fun k => others k + s.cache.holds b k)
    (hasks : Asks (pageReader D) b s s') :
    Counted s'.table (fun k => others k + s'.cache.holds b k) ∧ Grows s.table s'.table ∧
      s'.table.Touched := by
  induction hasks with
  | single hstep =>
    obtain ⟨i, record, hvalue⟩ := hstep
    exact h.value hvalue
  | tail _ hstep ih =>
    obtain ⟨hcounted, hgrows, -⟩ := ih
    obtain ⟨i, record, hvalue⟩ := hstep
    obtain ⟨hcounted', hgrows', htouched⟩ := hcounted.value hvalue
    exact ⟨hcounted', hgrows.trans hgrows', htouched⟩

theorem Effect.of_agrees {α : Type} {x : Exec (α × Unit)} {y : Exec (α × IterPages)} {a : α}
    (hagrees : Agrees₁ (pageReader D) b s x y)
    (h : Counted s.table fun k => others k + s.cache.holds b k) (hy : y = .ok (a, s')) :
    Effect s.table s'.table (fun k => others k + s.cache.holds b k)
      (fun k => others k + s'.cache.holds b k) (∃ v, x = .ok v) := by
  obtain ⟨g, hx, hsame⟩ | ⟨hx, hasks⟩ := hagrees
  · rw [hsame] at hy
    cases hy
    exact ⟨h, Grows.refl _, fun hno => absurd ⟨_, hx⟩ hno, fun _ hzero => hzero⟩
  · obtain ⟨g, s'', heq, hasks⟩ := hasks _ hy
    cases heq
    obtain ⟨hcounted, hgrows, htouched⟩ := h.asks hasks
    refine ⟨hcounted, hgrows, fun _ => htouched, ?_⟩
    rintro ⟨v, hv⟩
    exact absurd hv (hx v)

theorem clear_zero (h : Counted s.table fun k => others k + s.cache.holds b k)
    (hzero : ∀ key, s.table.ref key = 0) : (s.clear b).table = s.table := by
  have hnone : ∀ slot ∈ s.cache.slots, slot = none := by
    intro slot hslot
    cases slot with
    | none => rfl
    | some pageId =>
      have hheld : 0 < others (b.pageKey pageId) + s.cache.holds b (b.pageKey pageId) := by
        unfold PageCache.holds SolidBlock.pageKey
        rw [if_pos rfl]
        exact Nat.add_pos_right _ (List.count_pos_iff.mpr hslot)
      have := h.pos hheld
      rw [hzero] at this
      omega
  unfold IterPages.clear
  generalize s.cache.slots = slots at hnone
  generalize s.table = t
  induction slots generalizing t with
  | nil => rfl
  | cons slot slots ih =>
    rw [hnone slot List.mem_cons_self]
    exact ih (fun slot hslot => hnone slot (List.mem_cons_of_mem _ hslot)) t

theorem IterReader.create_effect {flag : Nat} {filter : Option Filter} {r : IterReader}
    (h : Counted t others) (hcreate : IterReader.create D b flag filter t = .ok (r, t')) :
    Effect t t' others (fun k => others k + r.cache.holds r.m_block k)
      (∃ v, SolidBlockIterator.create noPages b flag filter () = .ok v) := by
  obtain ⟨⟨it, s'⟩, hrun, hret⟩ := Exec.of_bind hcreate
  cases hret
  have hstart : Counted t fun k => others k + PageCache.empty.holds b k := by
    apply h.mono
    intro key
    rw [PageCache.holds_empty]
    omega
  have heffect := Effect.of_agrees (s := ⟨t, .empty⟩)
    (agrees_begin (pageReader D) b filter flag {} ⟨t, .empty⟩) hstart hrun
  exact ⟨heffect.counted, heffect.grows, heffect.asked, heffect.quiet⟩

theorem IterReader.move_effect {op : IterOp} {r r' : IterReader}
    (h : Counted t fun k => others k + r.cache.holds r.m_block k)
    (hmove : IterReader.move D op r t = .ok (r', t')) :
    Effect t t' (fun k => others k + r.cache.holds r.m_block k)
      (fun k => others k + r'.cache.holds r'.m_block k)
      (∃ v, op.run noPages r.m_block r.flag r.filter r.it () = .ok v) := by
  obtain ⟨⟨it, s'⟩, hrun, hret⟩ := Exec.of_bind hmove
  cases hret
  exact Effect.of_agrees (s := ⟨t, r.cache⟩)
    (agrees_run (pageReader D) r.m_block r.filter r.flag op r.it ⟨t, r.cache⟩) h hrun

theorem IterReader.value_effect {r r' : IterReader}
    (h : Counted t fun k => others k + r.cache.holds r.m_block k)
    (hvalue : IterReader.value D r t = .ok (r', t')) :
    Effect t t' (fun k => others k + r.cache.holds r.m_block k)
      (fun k => others k + r'.cache.holds r'.m_block k) False := by
  obtain ⟨⟨record, s'⟩, hrun, hret⟩ := Exec.of_bind hvalue
  cases hret
  obtain ⟨hcounted, hgrows, htouched⟩ := Counted.value (s := ⟨t, r.cache⟩) h hrun
  exact ⟨hcounted, hgrows, fun _ => htouched, fun hno => hno.elim⟩

theorem IterReader.destroy_effect {r : IterReader}
    (h : Counted t fun k => others k + r.cache.holds r.m_block k) :
    Effect t (r.destroy t) (fun k => others k + r.cache.holds r.m_block k) others True := by
  obtain ⟨hcounted, hgrows⟩ := Counted.clear (s := ⟨t, r.cache⟩) h
  refine ⟨hcounted, hgrows, fun hno => absurd trivial hno, ?_⟩
  intro _ hzero key
  have hsame : r.destroy t = t := clear_zero (s := ⟨t, r.cache⟩) h hzero
  rw [hsame]
  exact hzero key

theorem IterReader.resetBlock_effect {r r' : IterReader}
    (h : Counted t fun k => others k + r.cache.holds r.m_block k)
    (hreset : IterReader.resetBlock D b r t = .ok (r', t')) :
    Effect t t' (fun k => others k + r.cache.holds r.m_block k)
      (fun k => others k + r'.cache.holds r'.m_block k)
      (∃ v, SolidBlockIterator.begin noPages b r.flag r.filter r.it () = .ok v) := by
  obtain ⟨⟨it, s'⟩, hrun, hret⟩ := Exec.of_bind hreset
  cases hret
  -- `clear` gives the pages of the old block back, then `begin` runs on the new one
  have hcleared := r.destroy_effect h
  have hstart : Counted (r.destroy t) fun k => others k + PageCache.empty.holds b k := by
    apply hcleared.counted.mono
    intro key
    rw [PageCache.holds_empty]
    omega
  have hbegin : SolidBlockIterator.begin (pageReader D) b r.flag r.filter r.it
      ⟨r.destroy t, .empty⟩ = .ok (it, s') := hrun
  have heffect := Effect.of_agrees (s := ⟨r.destroy t, .empty⟩)
    (agrees_begin (pageReader D) b r.filter r.flag r.it ⟨r.destroy t, .empty⟩) hstart hbegin
  exact ⟨heffect.counted, hcleared.grows.trans heffect.grows, heffect.asked,
    fun hquiet hzero => heffect.quiet hquiet (hcleared.quiet trivial hzero)⟩

theorem getRecord_effect {recordId : Nat} (h : Counted t others)
    (hget : t.getRecord D b recordId = .ok t') :
    Effect t t' others others (b.head.m_recordCount ≤
      (((recordId : Int) - b.head.m_minRecordId - 1) % (2 ^ 32 : Nat)).toNat) := by
  unfold PageTable.getRecord at hget
  generalize (((recordId : Int) - b.head.m_minRecordId - 1) % (2 ^ 32 : Nat)).toNat = inner at *
  by_cases hout : b.head.m_recordCount ≤ inner
  · rw [if_pos hout] at hget
    cases hget
    exact ⟨h, Grows.refl _, fun hno => absurd hout hno, fun _ hzero => hzero⟩
  · rw [if_neg hout] at hget
    obtain ⟨info, -, hget⟩ := Exec.of_bind hget
    obtain ⟨⟨ok, t₁⟩, hpage, hget⟩ := Exec.of_bind hget
    obtain ⟨hcounted, hgrows, hone⟩ := h.getPage hpage
    cases ok with
    | false =>
      cases hget
      exact ⟨hcounted, hgrows, fun _ => ⟨_, hone⟩, fun hin => absurd hin hout⟩
    | true =>
      cases hget
      obtain ⟨hback, hgrows'⟩ := Counted.unuse hcounted
      exact ⟨hback, hgrows.trans hgrows', fun _ => ⟨_, hgrows' _ hone⟩, fun hin => absurd hin hout⟩

/-- The pages an index iterator holds: the one of its index, and the one of the record it was at. -/
def IndexReader.holds (r : IndexReader) : Nat × Nat → Nat :=
  fun key => slotHolds r.m_block (some r.indexPage) key + slotHolds r.m_block r.m_currentPage key

theorem IndexReader.create_effect {indexPage : Nat} {r : Option IndexReader} (h : Counted t others)
    (hcreate : IndexReader.create D b indexPage t = .ok (r, t')) :
    Effect t t' others (fun k => others k + (r.elim 0 fun r => r.holds k)) False := by
  obtain ⟨⟨ok, t₁⟩, hpage, hcreate⟩ := Exec.of_bind hcreate
  obtain ⟨hcounted, hgrows, hone⟩ := h.getPage hpage
  cases ok with
  | false =>
    cases hcreate
    exact ⟨hcounted, hgrows, fun _ => ⟨_, hone⟩, fun hno => hno.elim⟩
  | true =>
    cases hcreate
    -- the copy of the index and its destruction
    obtain ⟨hused, hgrows₁, -⟩ := Counted.use hcounted (b.pageKey indexPage)
    obtain ⟨hback, hgrows₂⟩ := hused.unuse
    refine ⟨hback.mono ?_, hgrows.trans (hgrows₁.trans hgrows₂), ?_, fun hno => hno.elim⟩
    · intro key
      simp only [Option.elim, IndexReader.holds, slotHolds_none, slotHolds_some, also, if_true]
      omega
    · intro _
      exact ⟨_, hgrows₂ _ (hgrows₁ _ hone)⟩

theorem IndexReader.load_effect {pageId : Nat} {r r' : IndexReader}
    (h : Counted t fun k => others k + slotHolds r.m_block (some r.indexPage) k)
    (hload : IndexReader.load D pageId r t = .ok (r', t')) :
    Counted t' (fun k => others k + r'.holds k) ∧ Grows t t' ∧ t'.Touched := by
  obtain ⟨⟨ok, t₁⟩, hpage, hload⟩ := Exec.of_bind hload
  obtain ⟨hcounted, hgrows, hone⟩ := h.getPage hpage
  cases hload
  refine ⟨hcounted.mono ?_, hgrows, _, hone⟩
  intro key
  cases ok with
  | false =>
    simp only [IndexReader.holds, Bool.false_eq_true, if_false, slotHolds_none]
    omega
  | true =>
    simp only [IndexReader.holds, if_true, slotHolds_some, also]
    omega

theorem IndexReader.value_effect {recordId : Nat} {r r' : IndexReader}
    (h : Counted t fun k => others k + r.holds k)
    (hvalue : IndexReader.value D recordId r t = .ok (r', t')) :
    Effect t t' (fun k => others k + r.holds k) (fun k => others k + r'.holds k) False := by
  have hdone : Counted t' (fun k => others k + r'.holds k) ∧ Grows t t' ∧ t'.Touched := by
    obtain ⟨info, -, hvalue⟩ := Exec.of_bind hvalue
    cases hcurrent : r.m_currentPage with
    | none =>
      simp only [hcurrent] at hvalue
      apply IndexReader.load_effect (h.mono ?_) hvalue
      intro key
      simp only [IndexReader.holds]
      omega
    | some current =>
      simp only [hcurrent] at hvalue
      split at hvalue
      · -- the page is still there
        cases hvalue
        refine ⟨h, Grows.refl _, r.m_block.pageKey current, ?_⟩
        have hheld : 0 < others (r.m_block.pageKey current) +
            r.holds (r.m_block.pageKey current) := by
          simp only [IndexReader.holds, hcurrent, slotHolds_some, if_true]
          omega
        have := h.pos hheld
        omega
      · have hheld : Counted t (also (r.m_block.pageKey current)
            fun k => others k + slotHolds r.m_block (some r.indexPage) k) := by
          apply h.mono
          intro key
          simp only [IndexReader.holds, hcurrent, slotHolds_some, also]
          omega
        obtain ⟨hback, hgrows⟩ := hheld.unuse
        obtain ⟨hcounted, hgrows', htouched⟩ := IndexReader.load_effect hback hvalue
        exact ⟨hcounted, hgrows.trans hgrows', htouched⟩
  exact ⟨hdone.1, hdone.2.1, fun _ => hdone.2.2, fun hno => hno.elim⟩

theorem IndexReader.destroy_effect {r : IndexReader} (h : Counted t fun k => others k + r.holds k) :
    Effect t (r.destroy t) (fun k => others k + r.holds k) others True := by
  have hdone : Counted (r.destroy t) others ∧ Grows t (r.destroy t) := by
    unfold IndexReader.destroy
    cases hcurrent : r.m_currentPage with
    | none =>
      have hheld : Counted t (also (r.m_block.pageKey r.indexPage) others) := by
        apply h.mono
        intro key
        simp only [IndexReader.holds, hcurrent, slotHolds_none, slotHolds_some, also]
        omega
      exact hheld.unuse
    | some current =>
      have hheld : Counted t (also (r.m_block.pageKey current)
          (also (r.m_block.pageKey r.indexPage) others)) := by
        apply h.mono
        intro key
        simp only [IndexReader.holds, hcurrent, slotHolds_some, also]
        omega
      obtain ⟨hback, hgrows⟩ := hheld.unuse
      obtain ⟨hback', hgrows'⟩ := hback.unuse
      exact ⟨hback', hgrows.trans hgrows'⟩
  refine ⟨hdone.1, hdone.2, fun hno => absurd trivial hno, ?_⟩
  -- it holds the page of its index, so a page has been asked for
  intro _ hzero
  have hheld : 0 < others (r.m_block.pageKey r.indexPage) +
      r.holds (r.m_block.pageKey r.indexPage) := by
    simp only [IndexReader.holds, slotHolds_some, if_true]
    omega
  have := h.pos hheld
  rw [hzero] at this
  omega

end

/-! ## Runs -/

/-- A reader of either kind. -/
inductive Reader where
  | iter (r : IterReader)
  | index (r : IndexReader)

/-- How often a reader holds a page. -/
def Reader.holds : Reader → Nat × Nat → Nat
  | .iter r => r.cache.holds r.m_block
  | .index r => r.holds

/-- The pages and the readers there are. -/
structure ReaderState where
  table : PageTable
  readers : List Reader

/-- How often the readers hold a page. -/
def ReaderState.holds (s : ReaderState) (key : Nat × Nat) : Nat :=
  (s.readers.map fun r => r.holds key).sum

/-- What readers do.  `seek` and `next` of an index iterator do not come to any page. -/
inductive ReaderOp where
  | getRecord (b : SolidBlock) (recordId : Nat)
  | create (b : SolidBlock) (flag : Nat) (filter : Option Filter)
  | move (r : IterReader) (op : IterOp)
  | value (r : IterReader)
  | resetBlock (r : IterReader) (b : SolidBlock)
  | destroy (r : IterReader)
  | createIndex (b : SolidBlock) (indexPage : Nat)
  | indexValue (r : IndexReader) (recordId : Nat)
  | destroyIndex (r : IndexReader)

/-- An operation that does not ask for a page. -/
def ReaderOp.Quiet : ReaderOp → Prop
  | .getRecord b recordId => b.head.m_recordCount ≤
      (((recordId : Int) - b.head.m_minRecordId - 1) % (2 ^ 32 : Nat)).toNat
  | .create b flag filter => ∃ v, SolidBlockIterator.create noPages b flag filter () = .ok v
  | .move r op => ∃ v, op.run noPages r.m_block r.flag r.filter r.it () = .ok v
  | .resetBlock r b => ∃ v, SolidBlockIterator.begin noPages b r.flag r.filter r.it () = .ok v
  | .destroy _ | .destroyIndex _ => True
  | .value _ | .createIndex _ _ | .indexValue _ _ => False

/-- One operation, by one of the readers or on a block. -/
inductive ReaderStep (D : Disk) : ReaderState → ReaderOp → ReaderState → Prop
  | getRecord {t t' : PageTable} {rs : List Reader} {b : SolidBlock} {recordId : Nat}
      (h : t.getRecord D b recordId = .ok t') :
      ReaderStep D ⟨t, rs⟩ (.getRecord b recordId) ⟨t', rs⟩
  | create {t t' : PageTable} {rs : List Reader} {b : SolidBlock} {flag : Nat}
      {filter : Option Filter} {r : IterReader}
      (h : IterReader.create D b flag filter t = .ok (r, t')) :
      ReaderStep D ⟨t, rs⟩ (.create b flag filter) ⟨t', .iter r :: rs⟩
  | move {t t' : PageTable} {before after : List Reader} {r r' : IterReader} {op : IterOp}
      (h : IterReader.move D op r t = .ok (r', t')) :
      ReaderStep D ⟨t, before ++ .iter r :: after⟩ (.move r op) ⟨t', before ++ .iter r' :: after⟩
  | value {t t' : PageTable} {before after : List Reader} {r r' : IterReader}
      (h : IterReader.value D r t = .ok (r', t')) :
      ReaderStep D ⟨t, before ++ .iter r :: after⟩ (.value r) ⟨t', before ++ .iter r' :: after⟩
  | resetBlock {t t' : PageTable} {before after : List Reader} {r r' : IterReader} {b : SolidBlock}
      (h : IterReader.resetBlock D b r t = .ok (r', t')) :
      ReaderStep D ⟨t, before ++ .iter r :: after⟩ (.resetBlock r b)
        ⟨t', before ++ .iter r' :: after⟩
  | destroy {t : PageTable} {before after : List Reader} {r : IterReader} :
      ReaderStep D ⟨t, before ++ .iter r :: after⟩ (.destroy r) ⟨r.destroy t, before ++ after⟩
  | createIndex {t t' : PageTable} {rs : List Reader} {b : SolidBlock} {indexPage : Nat}
      {r : Option IndexReader} (h : IndexReader.create D b indexPage t = .ok (r, t')) :
      ReaderStep D ⟨t, rs⟩ (.createIndex b indexPage) ⟨t', (r.map Reader.index).toList ++ rs⟩
  | indexValue {t t' : PageTable} {before after : List Reader} {r r' : IndexReader} {recordId : Nat}
      (h : IndexReader.value D recordId r t = .ok (r', t')) :
      ReaderStep D ⟨t, before ++ .index r :: after⟩ (.indexValue r recordId)
        ⟨t', before ++ .index r' :: after⟩
  | destroyIndex {t : PageTable} {before after : List Reader} {r : IndexReader} :
      ReaderStep D ⟨t, before ++ .index r :: after⟩ (.destroyIndex r)
        ⟨r.destroy t, before ++ after⟩

/-- `ReaderRun D es s`: from pages nobody uses, the operations `es`, each with the state it was made
    in, lead to `s`. -/
inductive ReaderRun (D : Disk) : List (ReaderState × ReaderOp) → ReaderState → Prop
  | start {t : PageTable} (h : ∀ key, t.ref key = 0) : ReaderRun D [] ⟨t, []⟩
  | step {es : List (ReaderState × ReaderOp)} {s s' : ReaderState} {op : ReaderOp}
      (h : ReaderRun D es s) (hs : ReaderStep D s op s') : ReaderRun D (es ++ [(s, op)]) s'

theorem ReaderState.holds_focus (t : PageTable) (before after : List Reader) (r : Reader) :
    ReaderState.holds ⟨t, before ++ r :: after⟩ =
      fun key => ReaderState.holds ⟨t, before ++ after⟩ key + r.holds key := by
  funext key
  unfold ReaderState.holds
  simp only [List.map_append, List.map_cons, List.sum_append, List.sum_cons]
  omega

variable {D : Disk} {s s' : ReaderState} {op : ReaderOp} {es : List (ReaderState × ReaderOp)}

theorem ReaderStep.effect (h : ReaderStep D s op s') (hC : Counted s.table s.holds) :
    Effect s.table s'.table s.holds s'.holds op.Quiet := by
  cases h with
  | getRecord h => exact getRecord_effect hC h
  | @create t t' rs b flag filter r h =>
    show Effect t t' _ (ReaderState.holds ⟨t', [] ++ Reader.iter r :: rs⟩) _
    rw [ReaderState.holds_focus t' [] rs (.iter r)]
    exact IterReader.create_effect hC h
  | move h =>
    rw [ReaderState.holds_focus] at hC ⊢
    rw [ReaderState.holds_focus]
    exact IterReader.move_effect hC h
  | value h =>
    rw [ReaderState.holds_focus] at hC ⊢
    rw [ReaderState.holds_focus]
    exact IterReader.value_effect hC h
  | resetBlock h =>
    rw [ReaderState.holds_focus] at hC ⊢
    rw [ReaderState.holds_focus]
    exact IterReader.resetBlock_effect hC h
  | destroy =>
    rw [ReaderState.holds_focus] at hC ⊢
    exact IterReader.destroy_effect hC
  | @createIndex t t' rs b indexPage r h =>
    cases r with
    | none => exact IndexReader.create_effect hC h
    | some r =>
      show Effect t t' _ (ReaderState.holds ⟨t', [] ++ Reader.index r :: rs⟩) _
      rw [ReaderState.holds_focus t' [] rs (.index r)]
      exact IndexReader.create_effect hC h
  | indexValue h =>
    rw [ReaderState.holds_focus] at hC ⊢
    rw [ReaderState.holds_focus]
    exact IndexReader.value_effect hC h
  | destroyIndex =>
    rw [ReaderState.holds_focus] at hC ⊢
    exact IndexReader.destroy_effect hC

/-- The counts are right in every state of a run; they are all 0 until the first operation that is
    not quiet, and never again after it. -/
structure ReaderInv (es : List (ReaderState × ReaderOp)) (s : ReaderState) : Prop where
  counted : Counted s.table s.holds
  past : ∀ e ∈ es, Counted e.1.table e.1.holds
  zero : (∀ e ∈ es, e.2.Quiet) → ∀ key, s.table.ref key = 0
  touched : (∃ e ∈ es, ¬e.2.Quiet) → s.table.Touched

theorem ReaderRun.inv (h : ReaderRun D es s) : ReaderInv es s := by
  induction h with
  | start h =>
    refine ⟨fun key => .inl ⟨h key, rfl⟩, fun e he => (nomatch he), fun _ => h, ?_⟩
    rintro ⟨e, he, -⟩
    cases he
  | @step es s s' op _ hs ih =>
    have heffect := hs.effect ih.counted
    refine ⟨heffect.counted, ?_, ?_, ?_⟩
    · intro e he
      obtain he | he := List.mem_append.mp he
      · exact ih.past e he
      · rw [List.mem_singleton.mp he]
        exact ih.counted
    · intro hquiet
      exact heffect.quiet (hquiet (s, op) (by simp))
        (ih.zero fun e he => hquiet e (List.mem_append_left _ he))
    · rintro ⟨e, he, hloud⟩
      obtain he | he := List.mem_append.mp he
      · exact (ih.touched ⟨e, he, hloud⟩).grows heffect.grows
      · rw [List.mem_singleton.mp he] at hloud
        exact heffect.asked hloud

/-- What reference counting of pages is for: a page is counted while a reader holds it, and when all
    readers are gone every page can be reclaimed. -/
structure PagesBalanced (es : List (ReaderState × ReaderOp)) (s : ReaderState) : Prop where
  held : ∀ e ∈ es, ∀ key, 0 < e.1.holds key → 0 < e.1.table.ref key
  zero : s.readers = [] → ∀ key, s.table.ref key = 0
  reclaimed : s.readers = [] → ∀ key, (s.table.page key).freeWhenNoUser.1 = true

/-- A run of readers that are all gone in the end leaves the counts balanced exactly when none of
    its operations asked for a page. -/
theorem pages_balanced_iff (h : ReaderRun D es s) (hgone : s.readers = []) :
    PagesBalanced es s ↔ ∀ e ∈ es, e.2.Quiet := by
  have hinv := h.inv
  constructor
  · intro hbalanced e he
    by_contra hloud
    obtain ⟨key, hkey⟩ := hinv.touched ⟨e, he, hloud⟩
    have := hbalanced.zero hgone key
    omega
  · intro hquiet
    refine ⟨fun e he key hheld => (hinv.past e he).pos hheld, fun _ => hinv.zero hquiet, ?_⟩
    intro _ key
    exact (s.table.page key).freeWhenNoUser_iff.mpr (hinv.zero hquiet key)

/-! ## A block of one page -/

def allLoad : Disk where
  loads _ := true
  content _ _ := [1, 2, 3, 4]

/-- An iterator without filter that is created, moved on and destroyed asks for no page. -/
theorem pages_balanced_no_value :
    ∃ es s, ReaderRun allLoad es s ∧ es.length = 3 ∧ s.readers = [] ∧ PagesBalanced es s := by
  let r : IterReader := {
    m_block := tableBlock 1 1 [0, 0]
    flag := 0
    filter := none
    it := { m_realRecordId := 1, m_status := .OK }
    cache := .empty }
  let r' : IterReader := { r with
    it := { m_recordId := 1, m_seekedId := 1, m_realRecordId := 2, m_status := .OK } }
  have hcreate : IterReader.create allLoad (tableBlock 1 1 [0, 0]) 0 none {} = .ok (r, {}) := by rfl
  have hnext : ∀ {σ : Type} (P : PageReader σ) (s : σ),
      IterOp.run P r.m_block r.flag r.filter r.it s .next = .ok (r'.it, s) := by
    intro σ P s
    simp [IterOp.run, SolidBlockIterator.next, SolidBlockIterator.nextLoop,
      SolidBlockIterator.advance, SolidBlockIterator.filterCurrentSeekRecord, increase,
      ITER_FLAG_DESC, tableBlock, r, r']
  have hmove : IterReader.move allLoad .next r {} = .ok (r', {}) := by
    unfold IterReader.move
    rw [hnext]
    rfl
  have hstart : ReaderRun allLoad [] ⟨{}, []⟩ := .start fun _ => rfl
  have hstep : ReaderStep allLoad ⟨{}, [] ++ .iter r :: []⟩ (.move r .next)
      ⟨{}, [] ++ .iter r' :: []⟩ := .move hmove
  have hdestroy : ReaderStep allLoad ⟨{}, [] ++ .iter r' :: []⟩ (.destroy r')
      ⟨r'.destroy {}, [] ++ []⟩ := .destroy
  have hrun := ((hstart.step (.create hcreate)).step hstep).step hdestroy
  refine ⟨_, _, hrun, rfl, rfl, (pages_balanced_iff hrun rfl).mpr ?_⟩
  intro e he
  simp only [List.nil_append, List.cons_append, List.mem_cons, List.not_mem_nil, or_false] at he
  obtain rfl | rfl | rfl := he
  · exact ⟨_, rfl⟩
  · exact ⟨_, hnext noPages ()⟩
  · trivial

/-- The first record of a block, looked up by id, leaves its page with the count 1. -/
theorem getRecord_pins_page :
    ∃ es s, ReaderRun allLoad es s ∧ es.length = 1 ∧ s.readers = [] ∧ s.table.ref (1, 0) = 1 ∧
      ¬PagesBalanced es s := by
  obtain ⟨t, hget, href⟩ : ∃ t, PageTable.getRecord allLoad (tableBlock 1 1 [0, 0]) 2 {} = .ok t ∧
      t.ref (1, 0) = 1 := ⟨_, rfl, by decide⟩
  have hstart : ReaderRun allLoad [] ⟨{}, []⟩ := .start fun _ => rfl
  refine ⟨_, _, hstart.step (.getRecord hget), rfl, rfl, href, ?_⟩
  intro hbalanced
  have := hbalanced.zero rfl (1, 0)
  rw [href] at this
  cases this

end DBStream.Native
