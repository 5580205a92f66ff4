import DBStream.Spec.HeapCorrect
import Mathlib.Algebra.Order.BigOperators.Group.List

/-!
# The merge of several indexes

After `seek` and each `next` the iterator is at the next key of all the blocks, in the newest
block that holds it.  Three things can go wrong on the way: `seek` does not look for duplicates of
its first key, `replaceAt` may leave the heap out of order (`SinkFits`), and where three iterators
have the same key the second one is not the one that gets to the top.
-/

namespace DBStream.Native

open BinaryHeap

namespace KWaySortIterator

variable {K : Type} [LinearOrder K] [Inhabited K] {s₀ s s' : KWaySortIterator K} {k : K}
  {out : List (K × Nat)} {i pos : Nat}

/-! ## What should come -/

/-- A key from `k` on, with the newest of the blocks that hold it. -/
structure Newest (s₀ : KWaySortIterator K) (k : K) (e : K × Nat) : Prop where
  inRange : k ≤ e.1
  held : ∃ i < s₀.m_iterCount, e.1 ∈ (s₀.m_iters i).keys ∧ (s₀.m_iters i).blockId = e.2
  newest : ∀ i < s₀.m_iterCount, e.1 ∈ (s₀.m_iters i).keys → (s₀.m_iters i).blockId ≤ e.2

/-- What came so far is strictly increasing, each key with its newest block, and no key is left
    out. -/
structure Merged (s₀ : KWaySortIterator K) (k : K) (out : List (K × Nat)) : Prop where
  sorted : out.Pairwise (·.1 < ·.1)
  newest : ∀ e ∈ out, Newest s₀ k e
  noneMissed : ∀ e, Newest s₀ k e → e ∈ out ∨ ∀ d ∈ out, d.1 < e.1

def Complete (s₀ : KWaySortIterator K) (k : K) (out : List (K × Nat)) : Prop :=
  ∀ e, Newest s₀ k e → e ∈ out

/-- The key the iterator is at, with the block its value is taken from. -/
def item (s : KWaySortIterator K) : K × Nat :=
  (s.keyOf s.m_current, (s.m_iters s.m_current).blockId)

/-! ## The conditions -/

/-- The first key of iterator `i` from `k` on. -/
def firstFrom (s : KWaySortIterator K) (k : K) (i : Nat) : Option K :=
  ((s.m_iters i).keys.dropWhile (· < k)).head?

/-- Only one iterator has the smallest key. -/
def SeekFits (s : KWaySortIterator K) (k : K) : Prop :=
  ∀ i < s.m_iterCount, ∀ j < s.m_iterCount, i ≠ j → ∀ x, s.firstFrom k i = some x →
    s.firstFrom k j = some x → ∃ l < s.m_iterCount, ∃ y, s.firstFrom k l = some y ∧ y < x

/-- The iterator can be sorted in again. -/
def AdvanceFits (s : KWaySortIterator K) (i pos : Nat) : Prop :=
  (s.m_iters i).next.1 = true →
    SinkFits (s.setIter i (s.m_iters i).next.2).keyOf s.m_heap.currentSize s.m_heap.currentSize
      s.m_heap.h (pos + 1)

/-- One turn of the loop of `next`: where the current iterator gives way to a newer one, the
    children of the root differ. -/
def TurnFits (s : KWaySortIterator K) : Prop :=
  ∀ second sid, s.m_heap.getSecond s.compare = some (second, sid) →
    s.keyOf s.m_current = s.keyOf second →
      if (s.m_iters s.m_current).blockId < (s.m_iters second).blockId then
        (3 ≤ s.m_heap.currentSize → s.keyOf (s.m_heap.h 2) ≠ s.keyOf (s.m_heap.h 3)) ∧
          s.AdvanceFits s.m_current 0
      else s.AdvanceFits second sid

/-- The state the loop of `next` starts in. -/
def moveOn (s : KWaySortIterator K) : KWaySortIterator K :=
  { s.advanceAt s.m_current 0 with m_current := (s.advanceAt s.m_current 0).m_heap.get }

/-- The first step of `next` and every turn of its loop. -/
def NextFits (s : KWaySortIterator K) : Prop :=
  0 < s.m_heap.currentSize → s.AdvanceFits s.m_current 0 ∧
    ∀ t, Relation.ReflTransGen (fun s t => dropDuplicate s = some t) s.moveOn t → t.TurnFits

/-- A seek to `k` and any number of calls of `next` that meet the conditions, with what came. -/
inductive MergeRun (s₀ : KWaySortIterator K) (k : K) : List (K × Nat) → KWaySortIterator K → Prop
  | seek (hfits : s₀.SeekFits k) :
      MergeRun s₀ k (if 0 < (s₀.seek k).m_heap.size then [(s₀.seek k).item] else []) (s₀.seek k)
  | next {out : List (K × Nat)} {s s' : KWaySortIterator K} {st : IterStatus}
      (hrun : MergeRun s₀ k out s) (hfits : s.NextFits) (hnext : s.next = .ok (st, s')) :
      MergeRun s₀ k (if st = .OK then out ++ [s'.item] else out) s'

/-! ## One iterator -/

omit [Inhabited K] in
theorem mem_dropWhile {l : List K} {x : K} (hx : x ∈ l) (hk : k ≤ x) :
    x ∈ l.dropWhile (· < k) := by
  induction l with
  | nil => exact hx
  | cons a l ih =>
    rw [List.dropWhile_cons]
    split
    · rename_i hlt
      rw [List.mem_cons] at hx
      cases hx with
      | inl heq => exact absurd (of_decide_eq_true hlt) (not_lt_of_ge (heq ▸ hk))
      | inr hmem => exact ih hmem
    · exact hx

omit [Inhabited K] in
private theorem le_of_mem_dropWhile {l : List K} {x : K} (hl : l.Pairwise (· < ·))
    (hx : x ∈ l.dropWhile (· < k)) : k ≤ x := by
  induction l with
  | nil => exact absurd hx List.not_mem_nil
  | cons a l ih =>
    rw [List.dropWhile_cons] at hx
    split at hx
    · exact ih (List.Pairwise.of_cons hl) hx
    · rename_i hge
      have hka : k ≤ a := by simpa using hge
      rw [List.mem_cons] at hx
      cases hx with
      | inl heq => exact heq ▸ hka
      | inr hmem => exact hka.trans (le_of_lt (List.rel_of_pairwise_cons hl hmem))

omit [LinearOrder K] [Inhabited K] in
theorem next_last {it : BlockIndexIterator K} {a : K} (hr : it.rest = [a]) :
    it.next = (false, it) := by
  unfold BlockIndexIterator.next
  rw [hr]

omit [LinearOrder K] [Inhabited K] in
theorem next_more {it : BlockIndexIterator K} {a b : K} {r : List K} (hr : it.rest = a :: b :: r) :
    it.next = (true, { it with rest := b :: r }) := by
  unfold BlockIndexIterator.next
  rw [hr]

/-! ## The states between the steps -/

open Classical in
/-- The keys iterator `i` still has to bring. -/
noncomputable def left (s : KWaySortIterator K) (i : Nat) : List K :=
  if s.m_heap.Mem i then (s.m_iters i).rest else []

/-- The heap holds iterators that are on the way through their keys. -/
structure Sound (s₀ : KWaySortIterator K) (k : K) (s : KWaySortIterator K) : Prop where
  count : s.m_iterCount = s₀.m_iterCount
  block : ∀ i, (s.m_iters i).blockId = (s₀.m_iters i).blockId
  ordered : s.m_heap.Ordered s.keyOf
  live : ∀ i, s.m_heap.Mem i → i < s₀.m_iterCount ∧ (s.m_iters i).rest ≠ []
  part : ∀ i, s.m_heap.Mem i → (s.m_iters i).rest <:+ (s₀.m_iters i).keys.dropWhile (· < k)

/-- The iterators have strictly increasing keys. -/
def Increasing (s₀ : KWaySortIterator K) : Prop :=
  ∀ i < s₀.m_iterCount, (s₀.m_iters i).keys.Pairwise (· < ·)

omit [LinearOrder K] [Inhabited K] in
theorem left_of_mem (hm : s.m_heap.Mem i) : s.left i = (s.m_iters i).rest := if_pos hm

omit [LinearOrder K] [Inhabited K] in
theorem left_of_not_mem (hm : ¬ s.m_heap.Mem i) : s.left i = [] := if_neg hm

omit [LinearOrder K] [Inhabited K] in
theorem mem_of_left {x : K} (hx : x ∈ s.left i) : s.m_heap.Mem i := by
  by_contra hm
  rw [left_of_not_mem hm] at hx
  exact absurd hx (List.not_mem_nil)

theorem Sound.left_eq (hs : Sound s₀ k s) (hm : s.m_heap.Mem i) :
    ∃ r, s.left i = s.keyOf i :: r := by
  rw [left_of_mem hm]
  unfold keyOf BlockIndexIterator.key
  cases hr : (s.m_iters i).rest with
  | nil => exact absurd hr (hs.live i hm).2
  | cons a r => exact ⟨r, rfl⟩

theorem Sound.left_sorted (hs : Sound s₀ k s) (hinc : s₀.Increasing) (i : Nat) :
    (s.left i).Pairwise (· < ·) := by
  by_cases hm : s.m_heap.Mem i
  · rw [left_of_mem hm]
    have hkeys := hinc i (hs.live i hm).1
    exact (hkeys.sublist (List.dropWhile_sublist _)).sublist (hs.part i hm).sublist
  · rw [left_of_not_mem hm]
    exact List.Pairwise.nil

theorem Sound.keyOf_le (hs : Sound s₀ k s) (hinc : s₀.Increasing) {x : K} (hx : x ∈ s.left i) :
    s.keyOf i ≤ x := by
  obtain ⟨r, hr⟩ := hs.left_eq (mem_of_left hx)
  have hsorted := hs.left_sorted hinc i
  rw [hr] at hx hsorted
  rw [List.mem_cons] at hx
  cases hx with
  | inl heq => exact le_of_eq heq.symm
  | inr hmem => exact le_of_lt (List.rel_of_pairwise_cons hsorted hmem)

theorem Sound.root_le (hs : Sound s₀ k s) (hinc : s₀.Increasing) {x : K} (hx : x ∈ s.left i) :
    s.keyOf (s.m_heap.h 1) ≤ x := by
  obtain ⟨j, h₁, hj, rfl⟩ := mem_of_left hx
  exact (hs.ordered.heap.root_le h₁ hj).trans (hs.keyOf_le hinc hx)

/-! ## An iterator moves on -/

/-- What one call of `next` of iterator `i` does to the others and to itself. -/
structure Advanced (s : KWaySortIterator K) (i : Nat) (s' : KWaySortIterator K) : Prop where
  self : s'.left i = (s.left i).tail
  others : ∀ j, j ≠ i → s'.left j = s.left j
  iters : ∀ j, j ≠ i → s'.m_iters j = s.m_iters j
  current : s'.m_current = s.m_current

omit [LinearOrder K] [Inhabited K] in
theorem setIter_same (s : KWaySortIterator K) (i : Nat) : s.setIter i (s.m_iters i) = s := by
  unfold setIter
  congr
  funext j
  split
  · rename_i hj
    rw [hj]
  · rfl

theorem advanceAt_last {a : K} (hr : (s.m_iters i).rest = [a]) :
    s.advanceAt i pos = { s with m_heap := s.m_heap.popAt (byKey s.keyOf) pos } := by
  unfold advanceAt
  rw [next_last hr]
  simp only [setIter_same]
  rfl

theorem advanceAt_more {a b : K} {r : List K} (hr : (s.m_iters i).rest = a :: b :: r) :
    s.advanceAt i pos = { s.setIter i { s.m_iters i with rest := b :: r } with
      m_heap := s.m_heap.replaceAt
        (byKey (s.setIter i { s.m_iters i with rest := b :: r }).keyOf) i pos } := by
  unfold advanceAt
  rw [next_more hr]
  rfl

omit [LinearOrder K] [Inhabited K] in
@[simp] theorem setIter_self (it : BlockIndexIterator K) : (s.setIter i it).m_iters i = it := by
  simp [setIter]

omit [LinearOrder K] [Inhabited K] in
theorem setIter_of_ne {j : Nat} (it : BlockIndexIterator K) (hj : j ≠ i) :
    (s.setIter i it).m_iters j = s.m_iters j := by
  simp [setIter, hj]

omit [LinearOrder K] in
theorem setIter_keyOf_of_ne {j : Nat} (it : BlockIndexIterator K) (hj : j ≠ i) :
    (s.setIter i it).keyOf j = s.keyOf j := by
  rw [keyOf, setIter_of_ne it hj, keyOf]

theorem advanceAt_taken_out (hs : Sound s₀ k s) (hpos : pos + 1 ≤ s.m_heap.currentSize)
    (hi : s.m_heap.h (pos + 1) = i) (htop : pos < 3) {a : K} (hr : (s.m_iters i).rest = [a]) :
    Sound s₀ k (s.advanceAt i pos) ∧ Advanced s i (s.advanceAt i pos) ∧
      s.m_heap.currentSize - 1 ≤ (s.advanceAt i pos).m_heap.currentSize := by
  have hm : s.m_heap.Mem i := ⟨pos + 1, by omega, hpos, hi⟩
  obtain ⟨hord, hmem, hsize⟩ := Heap.popAt_ordered s.keyOf hs.ordered hpos htop
    fun _ _ => rfl
  rw [hi] at hmem
  rw [advanceAt_last hr]
  refine ⟨⟨hs.count, hs.block, hord, fun j hj => ?_, fun j hj => ?_⟩,
    ⟨?_, fun j hj => ?_, fun _ _ => rfl, rfl⟩, Nat.le_of_eq hsize.symm⟩
  · exact hs.live j ((hmem j).mp hj).1
  · exact hs.part j ((hmem j).mp hj).1
  · rw [left_of_not_mem fun h => ((hmem i).mp h).2 rfl, left_of_mem hm, hr]
    rfl
  · by_cases hjm : s.m_heap.Mem j
    · rw [left_of_mem hjm]
      exact left_of_mem (s := { s with m_heap := _ }) ((hmem j).mpr ⟨hjm, hj⟩)
    · rw [left_of_not_mem hjm]
      exact left_of_not_mem fun h => hjm ((hmem j).mp h).1

/-- An iterator that goes on to its next value stays in the heap, at the place of the value. -/
theorem advanceAt_sorted_in (hs : Sound s₀ k s) (hinc : s₀.Increasing)
    (hpos : pos + 1 ≤ s.m_heap.currentSize) (hi : s.m_heap.h (pos + 1) = i)
    (hfits : s.AdvanceFits i pos) {a b : K} {r : List K}
    (hr : (s.m_iters i).rest = a :: b :: r) :
    Sound s₀ k (s.advanceAt i pos) ∧ Advanced s i (s.advanceAt i pos) ∧
      s.m_heap.currentSize - 1 ≤ (s.advanceAt i pos).m_heap.currentSize := by
  have hm : s.m_heap.Mem i := ⟨pos + 1, by omega, hpos, hi⟩
  have hsorted := hs.left_sorted hinc i
  rw [left_of_mem hm, hr] at hsorted
  have hfits' := hfits (by rw [next_more hr])
  rw [next_more hr] at hfits'
  obtain ⟨hord, hmem, hsize⟩ := Heap.replaceAt_ordered hs.ordered hpos
    (fun j hj => setIter_keyOf_of_ne { s.m_iters i with rest := b :: r } (hi ▸ hj))
    (by
      rw [hi, keyOf, BlockIndexIterator.key, hr, keyOf, BlockIndexIterator.key, setIter_self]
      exact le_of_lt (List.rel_of_pairwise_cons hsorted List.mem_cons_self)) hfits'
  rw [hi] at hord hmem hsize
  rw [advanceAt_more hr]
  refine ⟨⟨hs.count, fun j => ?_, hord, fun j hj => ?_, fun j hj => ?_⟩,
    ⟨?_, fun j hj => ?_, fun j hj => setIter_of_ne _ hj, rfl⟩, ?_⟩
  · by_cases hji : j = i
    · subst hji
      exact (congrArg BlockIndexIterator.blockId (setIter_self _)).trans (hs.block j)
    · exact (congrArg BlockIndexIterator.blockId (setIter_of_ne _ hji)).trans (hs.block j)
  · refine ⟨(hs.live j ((hmem j).mp hj)).1, ?_⟩
    by_cases hji : j = i
    · subst hji
      exact ne_of_eq_of_ne (congrArg BlockIndexIterator.rest (setIter_self _))
        (List.cons_ne_nil b r)
    · exact ne_of_eq_of_ne (congrArg BlockIndexIterator.rest (setIter_of_ne _ hji))
        (hs.live j ((hmem j).mp hj)).2
  · by_cases hji : j = i
    · subst hji
      have hpart := hs.part j hm
      rw [hr] at hpart
      rw [setIter_self]
      exact (List.suffix_cons a (b :: r)).trans hpart
    · show ((s.setIter i { s.m_iters i with rest := b :: r }).m_iters j).rest <:+ _
      rw [setIter_of_ne _ hji]
      exact hs.part j ((hmem j).mp hj)
  · rw [left_of_mem hm, hr]
    exact (left_of_mem (s := { s.setIter i _ with m_heap := _ }) ((hmem i).mpr hm)).trans
      (congrArg BlockIndexIterator.rest (setIter_self _))
  · by_cases hjm : s.m_heap.Mem j
    · rw [left_of_mem hjm]
      exact (left_of_mem (s := { s.setIter i _ with m_heap := _ }) ((hmem j).mpr hjm)).trans
        (congrArg BlockIndexIterator.rest (setIter_of_ne _ hj))
    · rw [left_of_not_mem hjm]
      exact left_of_not_mem fun h => hjm ((hmem j).mp h)
  · exact (Nat.sub_le _ 1).trans (Nat.le_of_eq hsize.symm)

theorem advanceAt_spec (hs : Sound s₀ k s) (hinc : s₀.Increasing)
    (hpos : pos + 1 ≤ s.m_heap.currentSize) (hi : s.m_heap.h (pos + 1) = i) (htop : pos < 3)
    (hfits : s.AdvanceFits i pos) :
    Sound s₀ k (s.advanceAt i pos) ∧ Advanced s i (s.advanceAt i pos) ∧
      s.m_heap.currentSize - 1 ≤ (s.advanceAt i pos).m_heap.currentSize := by
  have hm : s.m_heap.Mem i := ⟨pos + 1, by omega, hpos, hi⟩
  cases hr : (s.m_iters i).rest with
  | nil => exact absurd hr (hs.live i hm).2
  | cons a r =>
    cases r with
    | nil => exact advanceAt_taken_out hs hpos hi htop hr
    | cons b r => exact advanceAt_sorted_in hs hinc hpos hi hfits hr

private theorem advanceAt_root (hpos : 1 ≤ pos) :
    (s.advanceAt i pos).m_heap.h 1 = s.m_heap.h 1 := by
  unfold advanceAt Heap.replaceAt Heap.popAt Heap.adjust
  cases (s.m_iters i).next with
  | mk ok it =>
    cases ok with
    | true => exact (adjustLoop_above _ (by omega)).trans (Heap.put_of_ne (by omega))
    | false =>
      show (if s.m_heap.currentSize ≤ 1 then _ else _ : Heap Nat).h 1 = _
      split
      · rfl
      · exact (adjustLoop_above _ (by omega)).trans (Heap.put_of_ne (by omega))

/-! ## The second iterator -/

/-- `second` is the only smaller child of the root. -/
def IsSecond (key : Nat → K) (n : Nat) (h : Nat → Nat) (second : Nat) : Prop :=
  (second = h 2 ∧ 2 ≤ n ∧ (n = 2 ∨ key (h 2) < key (h 3))) ∨
    (second = h 3 ∧ 3 ≤ n ∧ key (h 3) < key (h 2))

omit [Inhabited K] in
/-- The root may sink by one place, to that of the second smallest. -/
theorem adjust_root {key : Nat → K} {n second : Nat} {h : Nat → Nat}
    (hsecond : IsSecond key n h second) (hle : key second ≤ key (h 1))
    (hthree : n = 3 → second = h 3 → h 1 = h 3) :
    Heap.adjust (byKey key) h 1 n 1 = second := by
  obtain ⟨m, hm⟩ : ∃ m, n = m + 1 := by
    cases hsecond with
    | inl h₂ => exact ⟨n - 1, by omega⟩
    | inr h₃ => exact ⟨n - 1, by omega⟩
  have hstep : ∀ c, c = 2 ∨ c = 3 → lesserChild key n h 1 = c → 2 ≤ n → key (h c) ≤ key (h 1) →
      Heap.adjust (byKey key) h 1 n 1 = h c := by
    intro c hc hchild hn hck
    unfold Heap.adjust
    rw [show Heap.adjustLoop (byKey key) n n h 1 = Heap.adjustLoop (byKey key) n (m + 1) h 1 by
      rw [hm], adjustLoop_step, if_pos (by omega), hchild, if_neg (not_lt_of_ge hck),
      adjustLoop_above _ (by omega), swapAt_left]
  cases hsecond with
  | inl h₂ =>
    obtain ⟨rfl, hn, hlt⟩ := h₂
    have hchild : lesserChild key n h 1 = 2 := by
      unfold lesserChild
      rw [if_neg]
      intro ⟨h₃, hr⟩
      rw [byKey_iff] at hr
      cases hlt with
      | inl heq => omega
      | inr hlt => exact lt_asymm hlt hr
    exact hstep 2 (Or.inl rfl) hchild hn hle
  | inr h₃ =>
    obtain ⟨rfl, hn, hlt⟩ := h₃
    by_cases hn₃ : n = 3
    · -- the right child is not looked at, but the root is the same element already
      have hchild : lesserChild key n h 1 = 2 := by
        unfold lesserChild
        rw [if_neg (by omega)]
      have hroot := hthree hn₃ rfl
      unfold Heap.adjust
      rw [show Heap.adjustLoop (byKey key) n n h 1 = Heap.adjustLoop (byKey key) n (m + 1) h 1 by
        rw [hm], adjustLoop_step, if_pos (by omega), hchild, hroot, if_pos hlt, hroot]
    · have hchild : lesserChild key n h 1 = 3 := by
        unfold lesserChild
        rw [if_pos ⟨by omega, byKey_iff.mpr hlt⟩]
      exact hstep 3 (Or.inr rfl) hchild (by omega) hle

/-- What `getSecond` finds. -/
structure SecondFound (s : KWaySortIterator K) (second sid : Nat) : Prop where
  child : sid = 1 ∨ sid = 2
  inHeap : sid + 1 ≤ s.m_heap.currentSize
  place : s.m_heap.h (sid + 1) = second
  unique : (3 ≤ s.m_heap.currentSize → s.keyOf (s.m_heap.h 2) ≠ s.keyOf (s.m_heap.h 3)) →
    IsSecond s.keyOf s.m_heap.currentSize s.m_heap.h second
  le_left : 2 ≤ s.m_heap.currentSize → s.keyOf second ≤ s.keyOf (s.m_heap.h 2)
  le_right : 3 ≤ s.m_heap.currentSize → s.keyOf second ≤ s.keyOf (s.m_heap.h 3)

theorem getSecond_found {second sid : Nat}
    (hsec : s.m_heap.getSecond s.compare = some (second, sid)) : s.SecondFound second sid := by
  have hcmp : ∀ i j, s.compare i j = true ↔ s.keyOf i < s.keyOf j := fun i j => by simp [compare]
  unfold Heap.getSecond at hsec
  simp only [hcmp] at hsec
  split at hsec
  · exact absurd hsec (by simp)
  split at hsec
  · rename_i h₁ h₂
    obtain ⟨rfl, rfl⟩ := hsec
    refine ⟨Or.inl rfl, by omega, rfl, fun _ => Or.inl ⟨rfl, by omega, h₂⟩, fun _ => le_refl _,
      fun h₃ => ?_⟩
    cases h₂ with
    | inl heq => omega
    | inr hlt => exact le_of_lt hlt
  · rename_i h₁ h₂
    obtain ⟨rfl, rfl⟩ := hsec
    have hge : s.keyOf (s.m_heap.h 3) ≤ s.keyOf (s.m_heap.h 2) :=
      le_of_not_gt fun hlt => h₂ (Or.inr hlt)
    have hn : 3 ≤ s.m_heap.currentSize := by
      omega
    exact ⟨Or.inr rfl, hn, rfl, fun hne => Or.inr ⟨rfl, hn, lt_of_le_of_ne hge (hne hn).symm⟩,
      fun _ => hge, fun _ => le_refl _⟩

theorem getSecond_none : s.m_heap.getSecond s.compare = none ↔ s.m_heap.currentSize ≤ 1 := by
  unfold Heap.getSecond
  split
  · rename_i hle
    simp [hle]
  · rename_i hgt
    split <;> simp [hgt]

theorem Sound.second_le (hs : Sound s₀ k s) {second sid j : Nat}
    (hsec : s.m_heap.getSecond s.compare = some (second, sid)) (h₂ : 2 ≤ j)
    (hj : j ≤ s.m_heap.currentSize) : s.keyOf second ≤ s.keyOf (s.m_heap.h j) := by
  have hfound := getSecond_found hsec
  induction j using Nat.strongRecOn with
  | ind j ih =>
    by_cases hj₂ : j = 2
    · exact hj₂ ▸ hfound.le_left (by omega)
    by_cases hj₃ : j = 3
    · exact hj₃ ▸ hfound.le_right (by omega)
    exact (ih (j / 2) (by omega) (by omega) (by omega)).trans (hs.ordered.heap j h₂ hj)

/-- Where the current iterator moves on from a key it shares with the second one, the second one
    comes to the root. -/
theorem Sound.advanceAt_second (hs : Sound s₀ k s) (hinc : s₀.Increasing) {second sid : Nat}
    (htop : s.m_heap.h 1 = i) (hsec : s.m_heap.getSecond s.compare = some (second, sid))
    (heq : s.keyOf i = s.keyOf second)
    (htie : 3 ≤ s.m_heap.currentSize → s.keyOf (s.m_heap.h 2) ≠ s.keyOf (s.m_heap.h 3))
    (hfits : s.AdvanceFits i 0) : (s.advanceAt i 0).m_heap.h 1 = second := by
  have hfound := getSecond_found hsec
  have hchild := hfound.child
  have hin := hfound.inHeap
  have hsecond := hfound.unique htie
  have hn : 2 ≤ s.m_heap.currentSize := by omega
  have hm : s.m_heap.Mem i := ⟨1, Nat.le_refl 1, by omega, htop⟩
  have hdist := hs.ordered.distinct
  cases hr : (s.m_iters i).rest with
  | nil => exact absurd hr (hs.live i hm).2
  | cons a r =>
    cases r with
    | nil =>
      rw [advanceAt_last hr]
      rw [Heap.popAt, if_neg (by omega)]
      apply adjust_root
      · unfold IsSecond
        exact hsecond
      · rw [Heap.put_eq]
        exact hs.second_le hsec hn (Nat.le_refl _)
      · intro h₃ _
        rw [Heap.put_eq, Heap.put_of_ne (by omega), h₃]
    | cons b r =>
      have hsorted := hs.left_sorted hinc i
      rw [left_of_mem hm, hr] at hsorted
      have hab : a < b := List.rel_of_pairwise_cons hsorted List.mem_cons_self
      have hold : s.keyOf i = a := by
        rw [keyOf, BlockIndexIterator.key, hr]
        rfl
      have hfits' := hfits (by rw [next_more hr])
      rw [next_more hr] at hfits'
      rw [advanceAt_more hr]
      revert hfits'
      generalize hkey : (s.setIter i { s.m_iters i with rest := b :: r }).keyOf = key'
      intro hfits'
      have hnew : key' i = b := by
        rw [← hkey, keyOf, setIter_self]
        rfl
      have hsame : ∀ j, 2 ≤ j → j ≤ s.m_heap.currentSize →
          key' (s.m_heap.h j) = s.keyOf (s.m_heap.h j) := by
        intro j h₂ hj
        rw [← hkey]
        apply setIter_keyOf_of_ne
        rw [← htop]
        intro heq'
        have := hdist j 1 (by omega) hj (Nat.le_refl 1) (by omega) heq'
        omega
      have hsec' : key' second = a := by
        rw [← hfound.place, hsame _ (by omega) hin, hfound.place, ← heq, hold]
      show Heap.adjust (byKey key') (Heap.put s.m_heap.h 1 i) 1 s.m_heap.currentSize 1 = second
      rw [← htop, Heap.put_same]
      apply adjust_root
      · cases hsecond with
        | inl h₂ =>
          obtain ⟨hse, -, hlt⟩ := h₂
          refine Or.inl ⟨hse, hn, ?_⟩
          by_cases hn₂ : s.m_heap.currentSize = 2
          · exact Or.inl hn₂
          · rw [hsame 2 (by omega) hn, hsame 3 (by omega) (by omega)]
            exact hlt
        | inr h₃ =>
          obtain ⟨hse, hn₃, hlt⟩ := h₃
          refine Or.inr ⟨hse, hn₃, ?_⟩
          rw [hsame 2 (by omega) hn, hsame 3 (by omega) hn₃]
          exact hlt
      · rw [htop, hsec', hnew]
        exact le_of_lt hab
      · -- the sift would pass by the second one
        intro hn₃ hse
        cases hsecond with
        | inl h₂ =>
          have := hdist 2 3 (by omega) hn (by omega) (by omega) (h₂.1.symm.trans hse)
          omega
        | inr h₃ =>
          rw [hn₃] at hfits'
          have hlast := (hfits' (by omega)).1 rfl
          rw [hsame 3 (by omega) (by omega), hsame 2 (by omega) hn, htop, hnew, ← hse,
            ← heq, hold] at hlast
          exact absurd (hlast (by rw [← hold, heq, hse]; exact h₃.2.2)) (not_le_of_gt hab)

/-! ## The loop of `next` -/

/-- In the loop the current iterator is at the root, and of the keys behind `out` only the current
    one may have been dropped, in older blocks. -/
structure Dropping (s₀ : KWaySortIterator K) (k : K) (out : List (K × Nat))
    (s : KWaySortIterator K) : Prop where
  sound : Sound s₀ k s
  running : 1 ≤ s.m_heap.currentSize
  top : s.m_heap.h 1 = s.m_current
  fresh : ∀ i, ∀ x ∈ s.left i, ∀ e ∈ out, e.1 < x
  kept : ∀ i < s₀.m_iterCount, ∀ x ∈ (s₀.m_iters i).keys, k ≤ x → (∀ e ∈ out, e.1 < x) →
    x ∈ s.left i ∨ x = s.item.1 ∧ (s₀.m_iters i).blockId ≤ s.item.2

theorem Advanced.left_cases (ha : Advanced s i s') (hs : Sound s₀ k s) (hm : s.m_heap.Mem i)
    {j : Nat} {x : K} (hx : x ∈ s.left j) : x ∈ s'.left j ∨ j = i ∧ x = s.keyOf i := by
  by_cases hji : j = i
  · subst hji
    obtain ⟨r, hr⟩ := hs.left_eq hm
    rw [hr, List.mem_cons] at hx
    cases hx with
    | inl heq => exact Or.inr ⟨rfl, heq⟩
    | inr hmem =>
      rw [ha.self, hr]
      exact Or.inl hmem
  · rw [ha.others j hji]
    exact Or.inl hx

omit [LinearOrder K] [Inhabited K] in
theorem Advanced.left_subset (ha : Advanced s i s') {j : Nat} {x : K} (hx : x ∈ s'.left j) :
    x ∈ s.left j := by
  by_cases hji : j = i
  · subst hji
    rw [ha.self] at hx
    exact List.mem_of_mem_tail hx
  · rw [← ha.others j hji]
    exact hx

omit [LinearOrder K] in
theorem Advanced.keyOf (ha : Advanced s i s') {j : Nat} (hj : j ≠ i) : s'.keyOf j = s.keyOf j := by
  rw [KWaySortIterator.keyOf, ha.iters j hj, KWaySortIterator.keyOf]

/-- The keys that are left get fewer. -/
noncomputable def leftCount (s₀ s : KWaySortIterator K) : Nat :=
  ((List.range s₀.m_iterCount).map fun i => (s.left i).length).sum

theorem Advanced.leftCount_lt (ha : Advanced s i s') (hs : Sound s₀ k s) (hm : s.m_heap.Mem i) :
    leftCount s₀ s' < leftCount s₀ s := by
  obtain ⟨r, hr⟩ := hs.left_eq hm
  apply List.sum_lt_sum
  · intro j _
    by_cases hji : j = i
    · rw [hji, ha.self, List.length_tail]
      exact Nat.sub_le _ 1
    · rw [ha.others j hji]
  · refine ⟨i, List.mem_range.mpr (hs.live i hm).1, ?_⟩
    rw [ha.self, hr]
    exact Nat.lt_succ_self _

/-- One turn of the loop. -/
theorem Dropping.turn (hd : Dropping s₀ k out s) (hinc : s₀.Increasing) (hfits : s.TurnFits)
    (hturn : s.dropDuplicate = some s') :
    Dropping s₀ k out s' ∧ leftCount s₀ s' < leftCount s₀ s := by
  have hs := hd.sound
  unfold dropDuplicate at hturn
  cases hsec : s.m_heap.getSecond s.compare with
  | none =>
    rw [hsec] at hturn
    exact absurd hturn (by simp)
  | some p =>
    obtain ⟨second, sid⟩ := p
    rw [hsec] at hturn
    simp only at hturn
    have hfound := getSecond_found hsec
    have hchild := hfound.child
    have hin := hfound.inHeap
    have hms : s.m_heap.Mem second := ⟨sid + 1, by omega, hin, hfound.place⟩
    have hmc : s.m_heap.Mem s.m_current := ⟨1, Nat.le_refl 1, hd.running, hd.top⟩
    have hne : second ≠ s.m_current := by
      intro heq
      have := hs.ordered.distinct (sid + 1) 1 (by omega) hin (Nat.le_refl 1) hd.running
        (by rw [hfound.place, hd.top, heq])
      omega
    by_cases heq : s.keyOf s.m_current = s.keyOf second
    swap
    · rw [if_neg heq] at hturn
      exact absurd hturn (by simp)
    rw [if_pos heq] at hturn
    have hfit := hfits second sid hsec heq
    by_cases hlt : (s.m_iters s.m_current).blockId < (s.m_iters second).blockId
    · -- the current iterator gives way
      rw [if_pos hlt] at hturn hfit
      simp only [Option.some.injEq] at hturn
      obtain ⟨hs', ha, hsize⟩ := advanceAt_spec hs hinc hd.running hd.top (by omega) hfit.2
      have hroot := hs.advanceAt_second hinc hd.top hsec heq hfit.1 hfit.2
      subst hturn
      refine ⟨⟨⟨hs'.count, hs'.block, hs'.ordered, hs'.live, hs'.part⟩, by
        show 1 ≤ (s.advanceAt s.m_current 0).m_heap.currentSize; omega, hroot, ?_, ?_⟩,
        ha.leftCount_lt hs hmc⟩
      · intro i x hx
        exact hd.fresh i x (ha.left_subset hx)
      · intro i hi x hx hk hfresh
        have hitem₁ : (s.advanceAt s.m_current 0).keyOf second = s.item.1 := by
          rw [ha.keyOf hne, ← heq]
          rfl
        have hitem₂ : s.item.2 < ((s.advanceAt s.m_current 0).m_iters second).blockId := by
          rw [ha.iters second hne]
          exact hlt
        have hdropped : x ∈ (s.advanceAt s.m_current 0).left i ∨
            x = s.item.1 ∧ (s₀.m_iters i).blockId ≤ s.item.2 := by
          cases hd.kept i hi x hx hk hfresh with
          | inl hleft =>
            cases ha.left_cases hs hmc hleft with
            | inl hleft => exact Or.inl hleft
            | inr hcur =>
              refine Or.inr ⟨hcur.2, Nat.le_of_eq ?_⟩
              rw [hcur.1, ← hs.block]
              rfl
          | inr hold => exact Or.inr hold
        cases hdropped with
        | inl hleft => exact Or.inl hleft
        | inr hold =>
          exact Or.inr ⟨hold.1.trans hitem₁.symm, hold.2.trans (Nat.le_of_lt hitem₂)⟩
    · -- the second one moves on
      rw [if_neg hlt] at hturn hfit
      simp only [Option.some.injEq] at hturn
      obtain ⟨hs', ha, hsize⟩ := advanceAt_spec hs hinc hin hfound.place (by omega) hfit
      have hroot := advanceAt_root (s := s) (i := second) (show 1 ≤ sid by omega)
      subst hturn
      have hitem : (s.advanceAt second sid).item = s.item := by
        unfold item
        rw [ha.current, ha.keyOf hne.symm, ha.iters _ hne.symm]
      refine ⟨⟨hs', by omega, by rw [hroot, ha.current, hd.top], ?_, ?_⟩, ha.leftCount_lt hs hms⟩
      · intro i x hx
        exact hd.fresh i x (ha.left_subset hx)
      · intro i hi x hx hk hfresh
        rw [hitem]
        cases hd.kept i hi x hx hk hfresh with
        | inl hleft =>
          cases ha.left_cases hs hms hleft with
          | inl hleft => exact Or.inl hleft
          | inr hcur =>
            refine Or.inr ⟨hcur.2.trans heq.symm, ?_⟩
            rw [hcur.1, ← hs.block]
            exact Nat.le_of_not_lt hlt
        | inr hold => exact Or.inr hold

theorem Dropping.loop (hd : Dropping s₀ k out s) (hinc : s₀.Increasing)
    (hfits : ∀ t, Relation.ReflTransGen (fun s t => dropDuplicate s = some t) s t → t.TurnFits)
    {fuel : Nat} (hfuel : leftCount s₀ s < fuel) :
    ∃ s', dropDuplicates fuel s = .ok s' ∧ Dropping s₀ k out s' ∧ s'.dropDuplicate = none := by
  induction fuel generalizing s with
  | zero => omega
  | succ fuel ih =>
    unfold dropDuplicates
    cases hturn : s.dropDuplicate with
    | none => exact ⟨s, rfl, hd, hturn⟩
    | some t =>
      obtain ⟨hd', hlt⟩ := hd.turn hinc (hfits s .refl) hturn
      exact ih hd' (fun t' ht' => hfits t' (.head hturn ht')) (by omega)

theorem Dropping.alone (hd : Dropping s₀ k out s) (hinc : s₀.Increasing)
    (hturn : s.dropDuplicate = none) {x : K} (hx : x ∈ s.left i) (hcur : x = s.keyOf s.m_current) :
    i = s.m_current := by
  have hs := hd.sound
  obtain ⟨j, h₁, hj, hji⟩ := mem_of_left hx
  by_cases hj₁ : j = 1
  · rw [← hji, hj₁, hd.top]
  unfold dropDuplicate at hturn
  cases hsec : s.m_heap.getSecond s.compare with
  | none =>
    have := getSecond_none.mp hsec
    omega
  | some p =>
    obtain ⟨second, sid⟩ := p
    have hfound := getSecond_found hsec
    have hlow : s.keyOf s.m_current ≤ s.keyOf second := by
      rw [← hd.top, ← hfound.place]
      exact hs.ordered.heap.root_le (by omega) hfound.inHeap
    have hhigh : s.keyOf second ≤ s.keyOf s.m_current := by
      rw [← hcur]
      exact (hs.second_le hsec (by omega) hj).trans (hji ▸ hs.keyOf_le hinc hx)
    have heq := le_antisymm hlow hhigh
    rw [hsec] at hturn
    simp only [if_pos heq] at hturn
    split at hturn <;> exact absurd hturn (by simp)

/-! ## Between the calls -/

/-- After a key has come: only the current iterator has it, and what is behind it is left. -/
structure Resting (s₀ : KWaySortIterator K) (k : K) (out : List (K × Nat))
    (s : KWaySortIterator K) : Prop where
  sound : Sound s₀ k s
  running : 1 ≤ s.m_heap.currentSize
  top : s.m_heap.h 1 = s.m_current
  came : s.item ∈ out
  last : ∀ e ∈ out, e.1 ≤ s.keyOf s.m_current
  alone : ∀ i, ∀ x ∈ s.left i, x = s.keyOf s.m_current → i = s.m_current
  kept : ∀ i < s₀.m_iterCount, ∀ x ∈ (s₀.m_iters i).keys, k ≤ x → (∀ e ∈ out, e.1 < x) →
    x ∈ s.left i
  merged : Merged s₀ k out

/-- When no other iterator stands at the current value, the value is given. -/
theorem Dropping.yield (hd : Dropping s₀ k out s) (hinc : s₀.Increasing)
    (hmerged : Merged s₀ k out)
    (halone : ∀ i, ∀ x ∈ s.left i, x = s.keyOf s.m_current → i = s.m_current) :
    Resting s₀ k (out ++ [s.item]) s := by
  have hs := hd.sound
  have hmc : s.m_heap.Mem s.m_current := ⟨1, Nat.le_refl 1, hd.running, hd.top⟩
  have hcur : s.keyOf s.m_current ∈ s.left s.m_current := by
    obtain ⟨r, hr⟩ := hs.left_eq hmc
    rw [hr]
    exact List.mem_cons_self
  have hcount := (hs.live _ hmc).1
  have hdrop : s.keyOf s.m_current ∈ (s₀.m_iters s.m_current).keys.dropWhile (· < k) := by
    rw [left_of_mem hmc] at hcur
    exact (hs.part _ hmc).subset hcur
  have hk := le_of_mem_dropWhile (hinc _ hcount) hdrop
  have hheld := (List.dropWhile_sublist _).subset hdrop
  have hfresh := hd.fresh _ _ hcur
  have hnewest : Newest s₀ k s.item := by
    refine ⟨hk, ⟨s.m_current, hcount, hheld, (hs.block _).symm⟩, fun i hi hx => ?_⟩
    cases hd.kept i hi _ hx hk hfresh with
    | inl hleft =>
      rw [halone i _ hleft rfl, ← hs.block]
      exact Nat.le_refl _
    | inr hold => exact hold.2
  refine ⟨hs, hd.running, hd.top, by simp, fun e he => ?_, halone, fun i hi x hx hkx hlt => ?_,
    ⟨?_, fun e he => ?_, fun e he => ?_⟩⟩
  · rw [List.mem_append, List.mem_singleton] at he
    cases he with
    | inl hmem => exact le_of_lt (hfresh e hmem)
    | inr heq => exact le_of_eq (by rw [heq]; rfl)
  · have hlt' := hlt s.item (by simp)
    cases hd.kept i hi x hx hkx fun e he => hlt e (by simp [he]) with
    | inl hleft => exact hleft
    | inr hold => exact absurd (hold.1 ▸ hlt') (lt_irrefl _)
  · rw [List.pairwise_append]
    refine ⟨hmerged.sorted, List.pairwise_singleton _ _, fun e he d hd' => ?_⟩
    rw [List.mem_singleton] at hd'
    rw [hd']
    exact hfresh e he
  · rw [List.mem_append, List.mem_singleton] at he
    cases he with
    | inl hmem => exact hmerged.newest e hmem
    | inr heq => exact heq ▸ hnewest
  · cases hmerged.noneMissed e he with
    | inl hmem => exact Or.inl (by simp [hmem])
    | inr hbehind =>
      have hge : s.keyOf s.m_current ≤ e.1 := by
        obtain ⟨i, hi, hx, -⟩ := he.held
        cases hd.kept i hi _ hx he.inRange hbehind with
        | inl hleft => exact hd.top ▸ hs.root_le hinc hleft
        | inr hold => exact le_of_eq hold.1.symm
      rw [le_iff_eq_or_lt] at hge
      cases hge with
      | inl heq =>
        -- the same key with two newest blocks
        have hblock : e.2 = s.item.2 := by
          obtain ⟨i, hi, hx, hb⟩ := he.held
          obtain ⟨j, hj, hy, hc⟩ := hnewest.held
          have h₁ := hnewest.newest i hi (by rw [← heq] at hx; exact hx)
          have h₂ := he.newest j hj (by rw [← heq]; exact hy)
          omega
        have heitem : e = s.item := Prod.ext heq.symm hblock
        exact Or.inl (by simp [heitem])
      | inr hlt =>
        refine Or.inr fun d hd' => ?_
        rw [List.mem_append, List.mem_singleton] at hd'
        cases hd' with
        | inl hmem => exact hbehind d hmem
        | inr heq => exact heq ▸ hlt

theorem Resting.moveOn (hr : Resting s₀ k out s) (hinc : s₀.Increasing)
    (hfits : s.AdvanceFits s.m_current 0) :
    Sound s₀ k (s.advanceAt s.m_current 0) ∧
      (∀ i, ∀ x ∈ (s.advanceAt s.m_current 0).left i, ∀ e ∈ out, e.1 < x) ∧
      (∀ i < s₀.m_iterCount, ∀ x ∈ (s₀.m_iters i).keys, k ≤ x → (∀ e ∈ out, e.1 < x) →
        x ∈ (s.advanceAt s.m_current 0).left i) := by
  have hs := hr.sound
  have hmc : s.m_heap.Mem s.m_current := ⟨1, Nat.le_refl 1, hr.running, hr.top⟩
  obtain ⟨hs', ha, -⟩ := advanceAt_spec hs hinc hr.running hr.top (by omega) hfits
  have hbehind : ∀ i, ∀ x ∈ (s.advanceAt s.m_current 0).left i, s.keyOf s.m_current < x := by
    intro i x hx
    by_cases hi : i = s.m_current
    · obtain ⟨r, hleft⟩ := hs.left_eq hmc
      have hsorted := hs.left_sorted hinc s.m_current
      rw [hi, ha.self] at hx
      rw [hleft] at hx hsorted
      exact List.rel_of_pairwise_cons hsorted hx
    · have hx' := ha.left_subset hx
      apply lt_of_le_of_ne (hr.top ▸ hs.root_le hinc hx')
      intro heq
      exact hi (hr.alone i x hx' heq.symm)
  refine ⟨hs', fun i x hx e he => (hr.last e he).trans_lt (hbehind i x hx),
    fun i hi x hx hk hlt => ?_⟩
  cases ha.left_cases hs hmc (hr.kept i hi x hx hk hlt) with
  | inl hleft => exact hleft
  | inr hcur => exact absurd (hlt _ hr.came) (by rw [hcur.2]; exact lt_irrefl _)

theorem Resting.next (hr : Resting s₀ k out s) (hinc : s₀.Increasing) (hfits : s.NextFits) :
    (∃ s', s.next = .ok (.OK, s') ∧ Resting s₀ k (out ++ [s'.item]) s') ∨
      ∃ s', s.next = .ok (.ENDED, s') ∧ s'.m_heap.currentSize = 0 ∧ Complete s₀ k out := by
  obtain ⟨hfit, hturns⟩ := hfits hr.running
  obtain ⟨hs', hfresh, hkept⟩ := hr.moveOn hinc hfit
  unfold KWaySortIterator.next Heap.size
  rw [if_neg (Nat.ne_of_gt hr.running)]
  by_cases hempty : (s.advanceAt s.m_current 0).m_heap.currentSize = 0
  · refine Or.inr ⟨s.advanceAt s.m_current 0, if_pos hempty, hempty, fun e he => ?_⟩
    cases hr.merged.noneMissed e he with
    | inl hmem => exact hmem
    | inr hbehind =>
      obtain ⟨i, hi, hx, -⟩ := he.held
      obtain ⟨j, h₁, hj, -⟩ := mem_of_left (hkept i hi _ hx he.inRange hbehind)
      omega
  · have hd : Dropping s₀ k out s.moveOn :=
      ⟨⟨hs'.count, hs'.block, hs'.ordered, hs'.live, hs'.part⟩, Nat.pos_of_ne_zero hempty, rfl,
        hfresh, fun i hi x hx hk hlt => Or.inl (hkept i hi x hx hk hlt)⟩
    have hcount : leftCount s₀ s.moveOn < ((List.range (s.advanceAt s.m_current 0).m_iterCount).map
        fun i => ((s.advanceAt s.m_current 0).m_iters i).rest.length).sum + 1 := by
      rw [hs'.count]
      apply Nat.lt_succ_of_le
      apply List.sum_le_sum
      intro i _
      unfold left
      split
      · exact Nat.le_refl _
      · exact Nat.zero_le _
    obtain ⟨t, hloop, hd', hturn⟩ := hd.loop hinc hturns hcount
    refine Or.inl ⟨t, ?_, hd'.yield hinc hr.merged fun i x hx => hd'.alone hinc hturn hx⟩
    rw [if_neg hempty]
    show (dropDuplicates _ s.moveOn >>= _) = _
    rw [hloop]
    rfl

/-! ## The seek -/

/-- The loop of `seek` has seen the iterators before `m`. -/
structure Sought (s₀ : KWaySortIterator K) (k : K) (m : Nat) (s : KWaySortIterator K) : Prop where
  count : s.m_iterCount = s₀.m_iterCount
  iters : ∀ i, s.m_iters i =
    if i < m then { s₀.m_iters i with rest := (s₀.m_iters i).keys.dropWhile (· < k) }
    else s₀.m_iters i
  ordered : s.m_heap.Ordered s.keyOf
  mem : ∀ i, s.m_heap.Mem i ↔ i < m ∧ (s₀.m_iters i).keys.dropWhile (· < k) ≠ []

/-- One more iterator is at its first value from the key on. -/
theorem seekOne_sought {m : Nat} (hs : Sought s₀ k m s) : Sought s₀ k (m + 1) (s.seekOne k m) := by
  have hm : ¬ s.m_heap.Mem m := fun h => absurd ((hs.mem m).mp h).1 (Nat.lt_irrefl m)
  have hself : s.m_iters m = s₀.m_iters m := by rw [hs.iters, if_neg (Nat.lt_irrefl m)]
  have hiters : ∀ i, (s.setIter m
      { s.m_iters m with rest := (s.m_iters m).keys.dropWhile (· < k) }).m_iters i =
        if i < m + 1 then { s₀.m_iters i with rest := (s₀.m_iters i).keys.dropWhile (· < k) }
        else s₀.m_iters i := by
    intro i
    by_cases him : i = m
    · rw [him, setIter_self, if_pos (Nat.lt_succ_self m), hself]
    · rw [setIter_of_ne _ him, hs.iters]
      by_cases hlt : i < m
      · rw [if_pos hlt, if_pos (by omega)]
      · rw [if_neg hlt, if_neg (by omega)]
  have hkeys : ∀ i, i ≠ m → (s.setIter m
      { s.m_iters m with rest := (s.m_iters m).keys.dropWhile (· < k) }).keyOf i = s.keyOf i :=
    fun i hi => setIter_keyOf_of_ne _ hi
  unfold seekOne BlockIndexIterator.seek
  cases hfound : (s.m_iters m).keys.dropWhile (· < k) with
  | nil =>
    rw [hfound] at hiters hkeys
    refine ⟨hs.count, hiters, hs.ordered.congr fun i hi => hkeys i fun him => hm (him ▸ hi),
      fun i => ?_⟩
    rw [hself] at hfound
    apply (hs.mem i).trans
    constructor
    · intro ⟨hlt, hne⟩
      exact ⟨by omega, hne⟩
    · intro ⟨hlt, hne⟩
      have him : i ≠ m := fun him => hne (by rw [him, hfound])
      exact ⟨by omega, hne⟩
  | cons a r =>
    rw [hfound] at hiters hkeys
    obtain ⟨hord, hmem⟩ := Heap.insert_ordered hs.ordered hm hkeys
    refine ⟨hs.count, hiters, hord, fun i => ?_⟩
    rw [hself] at hfound
    apply (hmem i).trans
    rw [hs.mem i]
    constructor
    · intro hi
      cases hi with
      | inl hold => exact ⟨by omega, hold.2⟩
      | inr him => exact ⟨by omega, by rw [him, hfound]; exact List.cons_ne_nil a r⟩
    · intro ⟨hlt, hne⟩
      by_cases him : i = m
      · exact Or.inr him
      · exact Or.inl ⟨by omega, hne⟩

private theorem seekLoop_sought (s₀ : KWaySortIterator K) (k : K) (m : Nat) :
    Sought s₀ k m ((List.range m).foldl (fun s i => s.seekOne k i)
      { s₀ with m_heap := s₀.m_heap.clear }) := by
  induction m with
  | zero =>
    refine ⟨rfl, fun i => by simp, ⟨fun i h₂ hi => ?_, fun i j h₁ hi => ?_⟩, fun i => ?_⟩
    · exact absurd hi (by show ¬ i ≤ 0; omega)
    · exact absurd hi (by show ¬ i ≤ 0; omega)
    · constructor
      · intro ⟨j, h₁, hj, _⟩
        exact absurd hj (by show ¬ j ≤ 0; omega)
      · intro ⟨hlt, _⟩
        omega
  | succ m ih =>
    rw [List.range_succ, List.foldl_append]
    exact seekOne_sought ih

/-- After `seek` the least value is given, or there is none. -/
theorem seek_resting (hinc : s₀.Increasing) (hfits : s₀.SeekFits k) :
    0 < (s₀.seek k).m_heap.currentSize ∧ Resting s₀ k [(s₀.seek k).item] (s₀.seek k) ∨
      (s₀.seek k).m_heap.currentSize = 0 ∧ Complete s₀ k [] := by
  have hsought := seekLoop_sought s₀ k s₀.m_iterCount
  unfold seek Heap.size
  revert hsought
  generalize (List.range s₀.m_iterCount).foldl (fun s i => s.seekOne k i)
    { s₀ with m_heap := s₀.m_heap.clear } = t
  intro hsought
  have hmem : ∀ i < s₀.m_iterCount, ∀ x ∈ (s₀.m_iters i).keys, k ≤ x → t.m_heap.Mem i := by
    intro i hi x hx hk
    exact (hsought.mem i).mpr ⟨hi, List.ne_nil_of_mem (mem_dropWhile hx hk)⟩
  by_cases hsize : 0 < t.m_heap.currentSize
  · rw [if_pos hsize]
    refine Or.inl ⟨hsize, ?_⟩
    have hrest : ∀ i, t.m_heap.Mem i →
        (t.m_iters i).rest = (s₀.m_iters i).keys.dropWhile (· < k) := by
      intro i hi
      rw [hsought.iters, if_pos ((hsought.mem i).mp hi).1]
    have hsound : Sound s₀ k t := by
      refine ⟨hsought.count, fun i => ?_, hsought.ordered, fun i hi => ?_, fun i hi => ?_⟩
      · rw [hsought.iters]
        split <;> rfl
      · refine ⟨((hsought.mem i).mp hi).1, ?_⟩
        rw [hrest i hi]
        exact ((hsought.mem i).mp hi).2
      · exact hrest i hi ▸ List.suffix_refl _
    have hd : Dropping s₀ k [] { t with m_current := t.m_heap.get } := by
      refine ⟨⟨hsound.count, hsound.block, hsound.ordered, hsound.live, hsound.part⟩, hsize, rfl,
        fun i x _ e he => absurd he List.not_mem_nil, fun i hi x hx hk _ => Or.inl ?_⟩
      have hi' := hmem i hi x hx hk
      have hleft : left { t with m_current := t.m_heap.get } i = (t.m_iters i).rest :=
        left_of_mem hi'
      rw [hleft, hrest i hi']
      exact mem_dropWhile hx hk
    have hmerged : Merged s₀ k [] :=
      ⟨List.Pairwise.nil, fun e he => absurd he List.not_mem_nil,
        fun e _ => Or.inr fun d hd' => absurd hd' List.not_mem_nil⟩
    apply hd.yield hinc hmerged
    intro i x hx hcur
    -- a second iterator at the smallest key
    by_contra hne
    have hfirst : ∀ j, t.m_heap.Mem j → s₀.firstFrom k j = some (t.keyOf j) := by
      intro j hj
      obtain ⟨r, hr⟩ := hsound.left_eq hj
      rw [left_of_mem hj, hrest j hj] at hr
      rw [firstFrom, hr]
      rfl
    have hmi : t.m_heap.Mem i := mem_of_left hx
    have hmc : t.m_heap.Mem (t.m_heap.h 1) := ⟨1, Nat.le_refl 1, hsize, rfl⟩
    have hxi : t.keyOf i ≤ x := hd.sound.keyOf_le hinc hx
    have hlow : t.keyOf (t.m_heap.h 1) ≤ t.keyOf i := by
      obtain ⟨j, h₁, hj, hji⟩ := hmi
      rw [← hji]
      exact hsound.ordered.heap.root_le h₁ hj
    have heq : t.keyOf i = t.keyOf (t.m_heap.h 1) := le_antisymm (hcur ▸ hxi) hlow
    obtain ⟨l, hl, y, hy, hlt⟩ := hfits i ((hsought.mem i).mp hmi).1 (t.m_heap.h 1)
      ((hsought.mem _).mp hmc).1 hne _ (heq ▸ hfirst i hmi) (hfirst _ hmc)
    have hml : t.m_heap.Mem l := by
      refine (hsought.mem l).mpr ⟨hl, fun hnil => ?_⟩
      rw [firstFrom, hnil] at hy
      exact absurd hy (by simp)
    rw [hfirst l hml, Option.some.injEq] at hy
    obtain ⟨j, h₁, hj, hjl⟩ := hml
    have hroot := hsound.ordered.heap.root_le h₁ hj
    rw [hjl, hy] at hroot
    exact absurd hlt (not_lt_of_ge hroot)
  · rw [if_neg hsize]
    refine Or.inr ⟨by omega, fun e he => ?_⟩
    obtain ⟨i, hi, hx, -⟩ := he.held
    obtain ⟨j, h₁, hj, -⟩ := hmem i hi _ hx he.inRange
    omega

/-! ## Runs -/

/-- Where a run can be: at a key, or behind the last one. -/
def Reached (s₀ : KWaySortIterator K) (k : K) (out : List (K × Nat)) (s : KWaySortIterator K) :
    Prop :=
  Resting s₀ k out s ∨
    s.m_heap.currentSize = 0 ∧ Merged s₀ k out ∧ Complete s₀ k out

theorem next_of_empty (hempty : s.m_heap.currentSize = 0) : s.next = .ok (.ENDED, s) := by
  unfold KWaySortIterator.next Heap.size
  rw [if_pos hempty]

theorem MergeRun.reached (hrun : MergeRun s₀ k out s) (hinc : s₀.Increasing) :
    Reached s₀ k out s := by
  induction hrun with
  | seek hfits =>
    unfold Heap.size
    cases seek_resting hinc hfits with
    | inl hfound =>
      rw [if_pos hfound.1]
      exact Or.inl hfound.2
    | inr hnone =>
      rw [if_neg (by omega)]
      exact Or.inr ⟨hnone.1, ⟨List.Pairwise.nil, fun e he => absurd he List.not_mem_nil,
        fun e _ => Or.inr fun d hd => absurd hd List.not_mem_nil⟩, hnone.2⟩
  | next hrun hfits hnext ih =>
    cases ih with
    | inl hrest =>
      cases hrest.next hinc hfits with
      | inl hmore =>
        obtain ⟨t, ht, hrest'⟩ := hmore
        rw [ht] at hnext
        cases hnext
        exact Or.inl hrest'
      | inr hended =>
        obtain ⟨t, ht, hempty, hcomplete⟩ := hended
        rw [ht] at hnext
        cases hnext
        exact Or.inr ⟨hempty, hrest.merged, hcomplete⟩
    | inr hended =>
      rw [next_of_empty hended.1] at hnext
      cases hnext
      exact Or.inr hended

/-- What a run has brought is merged correctly, and the next call goes on with it or has reached
    the end of all the blocks. -/
theorem merge_correct (hinc : s₀.Increasing) (hrun : MergeRun s₀ k out s) :
    Merged s₀ k out ∧ (s.NextFits →
      (∃ s', s.next = .ok (.OK, s')) ∨
        ∃ s', s.next = .ok (.ENDED, s') ∧ Complete s₀ k out) := by
  cases hrun.reached hinc with
  | inl hrest =>
    refine ⟨hrest.merged, fun hfits => ?_⟩
    cases hrest.next hinc hfits with
    | inl hmore =>
      obtain ⟨t, ht, -⟩ := hmore
      exact Or.inl ⟨t, ht⟩
    | inr hended =>
      obtain ⟨t, ht, -, hcomplete⟩ := hended
      exact Or.inr ⟨t, ht, hcomplete⟩
  | inr hended =>
    exact ⟨hended.2.1, fun _ => Or.inr ⟨s, next_of_empty hended.1, hended.2.2⟩⟩

/-! ## Small merges -/

/-- Iterators over the given blocks, before any seek. -/
def ofBlocks (blocks : List (Nat × List Nat)) : KWaySortIterator Nat where
  m_iters i :=
    match blocks[i]? with
    | some (blockId, keys) => { blockId := blockId, keys := keys }
    | none => { blockId := 0, keys := [] }
  m_iterCount := blocks.length
  m_heap := { h := fun _ => 0, currentSize := 0 }
  m_current := 0

def nextItems : Nat → KWaySortIterator K → List (K × Nat)
  | 0, _ => []
  | n + 1, s =>
    match s.next with
    | .ok (.OK, s') => s'.item :: nextItems n s'
    | _ => []

theorem turns_end {t : KWaySortIterator K} (hend : s.dropDuplicate = none)
    (ht : Relation.ReflTransGen (fun s t => dropDuplicate s = some t) s t) : t = s := by
  cases ht.cases_head with
  | inl heq => exact heq.symm
  | inr hstep =>
    obtain ⟨c, hc, -⟩ := hstep
    rw [hend] at hc
    exact absurd hc (by simp)

theorem turns_step {t : KWaySortIterator K} (hstep : s.dropDuplicate = some s')
    (ht : Relation.ReflTransGen (fun s t => dropDuplicate s = some t) s t) :
    t = s ∨ Relation.ReflTransGen (fun s t => dropDuplicate s = some t) s' t := by
  cases ht.cases_head with
  | inl heq => exact Or.inl heq.symm
  | inr hmore =>
    obtain ⟨c, hc, hct⟩ := hmore
    rw [hstep, Option.some.injEq] at hc
    exact Or.inr (hc ▸ hct)

/-- A key of two blocks that is not the first one comes once, from the newer block. -/
theorem merge_correct_two_blocks :
    ((ofBlocks [(1, [0, 1]), (2, [1])]).seek 0).nextItems 5 = [(1, 2)] ∧
      Merged (ofBlocks [(1, [0, 1]), (2, [1])]) 0 [(0, 1), (1, 2)] := by
  constructor
  · decide
  have hinc : (ofBlocks [(1, [0, 1]), (2, [1])]).Increasing := by
    unfold Increasing
    decide
  have hseek : (ofBlocks [(1, [0, 1]), (2, [1])]).SeekFits 0 := by
    intro i hi j hj hne x hx hy
    have hi' : i < 2 := hi
    have hj' : j < 2 := hj
    obtain ⟨rfl, rfl⟩ | ⟨rfl, rfl⟩ : i = 0 ∧ j = 1 ∨ i = 1 ∧ j = 0 := by omega
    · cases hx
      exact absurd hy (by decide)
    · cases hx
      exact absurd hy (by decide)
  have hnext : ((ofBlocks [(1, [0, 1]), (2, [1])]).seek 0).NextFits := by
    intro _
    constructor
    · intro _ _
      exact ⟨fun h => absurd h (by decide), fun _ h => absurd h (by decide)⟩
    · intro t ht
      cases turns_step rfl ht with
      | inl heq =>
        rw [heq]
        intro second sid hsec _
        have hfound : some (0, 1) = some (second, sid) := hsec
        cases hfound
        intro hmore
        exact absurd hmore (by decide)
      | inr hmore =>
        rw [turns_end rfl hmore]
        intro second sid hsec
        have hnone : none = some (second, sid) := hsec
        cases hnone
  exact (merge_correct hinc ((MergeRun.seek hseek).next hnext
    (rfl : _ = Except.ok (IterStatus.OK, _)))).1

/-- The first key of both blocks comes twice; of three blocks without a common key, 3 comes behind
    4; and of three blocks with the key 1, that key does not come at all. -/
theorem merge_repeats_first_key :
    (ofBlocks [(1, [1, 2]), (2, [1, 3])]).Increasing ∧
      ((ofBlocks [(1, [1, 2]), (2, [1, 3])]).seek 1).item = (1, 1) ∧
      ((ofBlocks [(1, [1, 2]), (2, [1, 3])]).seek 1).nextItems 3 = [(1, 2), (2, 1), (3, 2)] ∧
      ¬ Merged (ofBlocks [(1, [1, 2]), (2, [1, 3])]) 1 [(1, 1), (1, 2), (2, 1), (3, 2)] ∧
      ((ofBlocks [(1, [1, 4]), (2, [2, 5]), (3, [3])]).seek 0).nextItems 4 =
        [(2, 2), (4, 1), (3, 3), (5, 2)] ∧
      ((ofBlocks [(1, [0, 1, 5]), (2, [1, 6]), (3, [1, 7])]).seek 0).nextItems 3 =
        [(7, 3), (6, 2), (7, 3)] := by
  refine ⟨by unfold Increasing; decide, by decide, by decide, fun hm => ?_, by decide +kernel,
    by decide +kernel⟩
  exact absurd hm.sorted (by decide)

end KWaySortIterator

end DBStream.Native
