import DBStream.Native.KWaySortIterator

/-!
# The heap keeps its order

`replaceAt` and `popAt` sink the new element of a place, `insert` lets it rise.  `adjust` asks
for `c + 1 < end` where the right child of `p` may be at `end` itself, so it does not see a right
child at the last place: `popAt`, whose last place is to go, is right all the same, `replaceAt`
only where the sift does not need that child (`SinkFits`).
-/

namespace DBStream.Native

open BinaryHeap

variable {T K : Type} [LinearOrder K] {key key' : T → K} {h : Nat → T} {q : Heap T}
  {n p fuel : Nat}

def byKey (key : T → K) (x y : T) : Bool := key x < key y

theorem byKey_iff {x y : T} : byKey key x y = true ↔ key x < key y := by simp [byKey]

def lesserChild (key : T → K) (endd : Nat) (h : Nat → T) (p : Nat) : Nat :=
  if 2 * p + 1 < endd ∧ byKey key (h (2 * p + 1)) (h (2 * p)) then 2 * p + 1 else 2 * p

theorem lesserChild_eq (key : T → K) (endd : Nat) (h : Nat → T) (p : Nat) :
    lesserChild key endd h p = 2 * p ∨
      lesserChild key endd h p = 2 * p + 1 ∧ 2 * p + 1 < endd := by
  unfold lesserChild
  split
  · rename_i hc
    exact Or.inr ⟨rfl, hc.1⟩
  · exact Or.inl rfl

theorem lesserChild_le {endd i : Nat} (hi : i < endd ∨ i = 2 * p) (hip : i / 2 = p) :
    key (h (lesserChild key endd h p)) ≤ key (h i) := by
  unfold lesserChild
  simp only [byKey_iff]
  by_cases hc : 2 * p + 1 < endd ∧ key (h (2 * p + 1)) < key (h (2 * p))
  · rw [if_pos hc]
    obtain rfl | rfl : i = 2 * p ∨ i = 2 * p + 1 := by omega
    · exact le_of_lt hc.2
    · exact le_refl _
  · rw [if_neg hc]
    obtain rfl | rfl : i = 2 * p ∨ i = 2 * p + 1 := by omega
    · exact le_refl _
    · have hlt : 2 * p + 1 < endd := by omega
      exact le_of_not_gt fun hgt => hc ⟨hlt, hgt⟩

/-- The sift from `p` never passes by a right child at `endd` that is smaller than its sibling and
    than the element. -/
def SinkFits (key : T → K) (endd : Nat) : Nat → (Nat → T) → Nat → Prop
  | 0, _, _ => True
  | fuel + 1, h, p =>
    2 * p ≤ endd →
      (2 * p + 1 = endd → key (h (2 * p + 1)) < key (h (2 * p)) →
        key (h p) ≤ key (h (2 * p + 1))) ∧
      (key (h (lesserChild key endd h p)) ≤ key (h p) →
        SinkFits key endd fuel (swapAt h p (lesserChild key endd h p)) (lesserChild key endd h p))

/-! ## Sinking -/

theorem adjustLoop_step (endd : Nat) (h : Nat → T) (p : Nat) :
    Heap.adjustLoop (byKey key) endd (fuel + 1) h p =
      if 2 * p ≤ endd then
        if key (h p) < key (h (lesserChild key endd h p)) then h
        else Heap.adjustLoop (byKey key) endd fuel (swapAt h p (lesserChild key endd h p))
          (lesserChild key endd h p)
      else h := by
  rw [Heap.adjustLoop]
  simp only [byKey_iff, lesserChild]

theorem adjustLoop_above (endd : Nat) {i : Nat} (hi : i < p) :
    Heap.adjustLoop (byKey key) endd fuel h p i = h i := by
  induction fuel generalizing h p with
  | zero => rfl
  | succ fuel ih =>
    rw [adjustLoop_step]
    split
    · split
      · rfl
      · have hc := lesserChild_eq key endd h p
        rw [ih (by omega), swapAt_of_ne (by omega) (by omega)]
    · rfl

theorem adjustLoop_rearranged (key : T → K) (n fuel : Nat) (h : Nat → T) (hp : 1 ≤ p) :
    Rearranged n h (Heap.adjustLoop (byKey key) n fuel h p) := by
  induction fuel generalizing h p with
  | zero => exact Rearranged.refl n h
  | succ fuel ih =>
    rw [adjustLoop_step]
    split
    · split
      · exact Rearranged.refl n h
      · have hc := lesserChild_eq key n h p
        have hswap : Rearranged n h (swapAt h p (lesserChild key n h p)) :=
          Rearranged.swapAt (by omega) (by omega)
        exact hswap.trans (ih _ (by omega))
    · exact Rearranged.refl n h

/-- Sinking the one element that is out of place makes a heap. -/
theorem adjustLoop_heap (hs : Sinking key h n p) (hp : 1 ≤ p) (hfuel : n < fuel + p)
    (hfits : SinkFits key n fuel h p) :
    IsHeap key (Heap.adjustLoop (byKey key) n fuel h p) n := by
  induction fuel generalizing h p with
  | zero =>
    -- no child is left
    exact hs.done fun i hi hip _ => by omega
  | succ fuel ih =>
    rw [adjustLoop_step]
    by_cases hle : 2 * p ≤ n
    · obtain ⟨hlast, hdeep⟩ := hfits hle
      have hc := lesserChild_eq key n h p
      rw [if_pos hle]
      by_cases hlt : key (h p) < key (h (lesserChild key n h p))
      · rw [if_pos hlt]
        apply hs.done
        intro i hi hip _
        by_cases hi' : i < n ∨ i = 2 * p
        · exact (le_of_lt hlt).trans (lesserChild_le hi' hip)
        · -- the right child at the last place
          have hin : 2 * p + 1 = i := by omega
          have hleft : lesserChild key n h p = 2 * p := by omega
          rw [hleft] at hlt
          by_cases hr : key (h (2 * p + 1)) < key (h (2 * p))
          · rw [← hin]
            exact hlast (by omega) hr
          · rw [← hin]
            exact (le_of_lt hlt).trans (le_of_not_gt hr)
      · have hge := le_of_not_gt hlt
        rw [if_neg hlt]
        apply ih _ (by omega) (by omega) (hdeep hge)
        apply hs.swapAt hp (by omega) (by omega) hge
        intro i hi hip
        by_cases hi' : i < n ∨ i = 2 * p
        · exact lesserChild_le hi' hip
        · have hin : 2 * p + 1 = i := by omega
          have hleft : lesserChild key n h p = 2 * p := by omega
          rw [hleft] at hge ⊢
          rw [← hin]
          by_cases hr : key (h (2 * p + 1)) < key (h (2 * p))
          · exact hge.trans (hlast (by omega) hr)
          · exact le_of_not_gt hr
    · rw [if_neg hle]
      exact hs.done fun i hi hip _ => by omega

/-- The same where the last element has been moved to the hole. -/
theorem adjustLoop_pop (hs : Sinking key h (n - 1) p) (hp : 1 ≤ p) (hpn : p < n)
    (hlast : h p = h n) (hfuel : n < fuel + p) :
    IsHeap key (Heap.adjustLoop (byKey key) n fuel h p) (n - 1) ∧
      Rearranged (n - 1) h (Heap.adjustLoop (byKey key) n fuel h p) := by
  induction fuel generalizing h p with
  | zero => omega
  | succ fuel ih =>
    rw [adjustLoop_step]
    by_cases hle : 2 * p ≤ n
    · have hc := lesserChild_eq key n h p
      rw [if_pos hle]
      by_cases hlt : key (h p) < key (h (lesserChild key n h p))
      · rw [if_pos hlt]
        refine ⟨hs.done fun i hi hip _ => ?_, Rearranged.refl _ h⟩
        exact (le_of_lt hlt).trans (lesserChild_le (Or.inl (by omega)) hip)
      · have hge := le_of_not_gt hlt
        rw [if_neg hlt]
        by_cases hcn : lesserChild key n h p = n
        · -- the last place itself, which holds the same element
          have hswap : swapAt h p n = h := by
            funext k
            by_cases hkp : k = p
            · rw [hkp, swapAt_left, hlast]
            by_cases hkn : k = n
            · rw [hkn, swapAt_right, hlast]
            · exact swapAt_of_ne hkp hkn
          have hend : Heap.adjustLoop (byKey key) n fuel h n = h := by
            cases fuel with
            | zero => rfl
            | succ fuel => rw [adjustLoop_step, if_neg (by omega)]
          rw [hcn, hswap, hend]
          exact ⟨hs.done fun i hi hip _ => by omega, Rearranged.refl _ h⟩
        · have hsink := hs.swapAt (c := lesserChild key n h p) hp (by omega) (by omega) hge
            fun i hi hip => lesserChild_le (Or.inl (by omega)) hip
          have hrest := ih hsink (by omega) (by omega)
            (by rw [swapAt_right, swapAt_of_ne (by omega) (by omega)]; exact hlast) (by omega)
          have hswap : Rearranged (n - 1) h (swapAt h p (lesserChild key n h p)) :=
            Rearranged.swapAt (by omega) (by omega)
          exact ⟨hrest.1, hswap.trans hrest.2⟩
    · rw [if_neg hle]
      exact ⟨hs.done fun i hi hip _ => by omega, Rearranged.refl _ h⟩

/-! ## The operations -/

/-- A heap of distinct elements. -/
structure Heap.Ordered (key : T → K) (q : Heap T) : Prop where
  heap : IsHeap key q.h q.currentSize
  distinct : Distinct q.currentSize q.h

def Heap.Mem (q : Heap T) (x : T) : Prop := Holds q.currentSize q.h x

theorem Heap.Ordered.congr (hq : q.Ordered key) (hkeys : ∀ x, q.Mem x → key' x = key x) :
    q.Ordered key' where
  heap := by
    intro i h₂ hi
    rw [hkeys _ ⟨i / 2, by omega, by omega, rfl⟩, hkeys _ ⟨i, by omega, hi, rfl⟩]
    exact hq.heap i h₂ hi
  distinct := hq.distinct

@[simp] theorem Heap.put_eq (h : Nat → T) (i : Nat) (x : T) : Heap.put h i x i = x := by
  simp [Heap.put]

theorem Heap.put_of_ne {i k : Nat} {x : T} (hk : k ≠ i) : Heap.put h i x k = h k := by
  simp [Heap.put, hk]

theorem Heap.put_same (h : Nat → T) (i : Nat) : Heap.put h i (h i) = h := by
  funext k
  by_cases hk : k = i
  · rw [hk, Heap.put_eq]
  · exact Heap.put_of_ne hk

theorem Heap.replaceAt_ordered {pos : Nat} (hq : q.Ordered key) (hpos : pos + 1 ≤ q.currentSize)
    (hkeys : ∀ x, x ≠ q.h (pos + 1) → key' x = key x)
    (hgrown : key (q.h (pos + 1)) ≤ key' (q.h (pos + 1)))
    (hfits : SinkFits key' q.currentSize q.currentSize q.h (pos + 1)) :
    (q.replaceAt (byKey key') (q.h (pos + 1)) pos).Ordered key' ∧
      (∀ x, (q.replaceAt (byKey key') (q.h (pos + 1)) pos).Mem x ↔ q.Mem x) ∧
      (q.replaceAt (byKey key') (q.h (pos + 1)) pos).currentSize = q.currentSize := by
  have hsize : (q.replaceAt (byKey key') (q.h (pos + 1)) pos).currentSize = q.currentSize := by
    simp only [Heap.replaceAt]
    rw [if_neg (by omega)]
  have hh : (q.replaceAt (byKey key') (q.h (pos + 1)) pos).h =
      Heap.adjustLoop (byKey key') q.currentSize q.currentSize q.h (pos + 1) := by
    simp only [Heap.replaceAt, Heap.adjust, Heap.put_same]
  have hsink : Sinking key' q.h q.currentSize (pos + 1) := by
    apply Sinking.of_heap hq.heap (by omega)
    · intro i h₁ hi hne
      exact hkeys _ fun heq => hne (hq.distinct i (pos + 1) h₁ hi (by omega) hpos heq)
    · intro h₂ hle
      exact (hq.heap (pos + 1) h₂ hle).trans hgrown
  have hr := adjustLoop_rearranged key' q.currentSize q.currentSize q.h (p := pos + 1) (by omega)
  refine ⟨⟨?_, ?_⟩, ?_, hsize⟩
  · rw [hsize, hh]
    exact adjustLoop_heap hsink (by omega) (by omega) hfits
  · rw [hsize, hh]
    exact hr.distinct hq.distinct
  · intro x
    unfold Heap.Mem
    rw [hsize, hh]
    exact hr.holds x

theorem holds_put_last (hd : Distinct n h) (hp : 1 ≤ p) (hpn : p ≤ n) (x : T) :
    Holds (n - 1) (Heap.put h p (h n)) x ↔ Holds n h x ∧ x ≠ h p := by
  constructor
  · intro ⟨i, h₁, hi, hx⟩
    by_cases hip : i = p
    · rw [hip, Heap.put_eq] at hx
      refine ⟨⟨n, by omega, Nat.le_refl n, hx⟩, fun heq => ?_⟩
      have hnp := hd n p (by omega) (Nat.le_refl n) hp hpn (by rw [hx, heq])
      omega
    · rw [Heap.put_of_ne hip] at hx
      refine ⟨⟨i, h₁, by omega, hx⟩, fun heq => ?_⟩
      exact hip (hd i p h₁ (by omega) hp hpn (by rw [hx, heq]))
  · intro ⟨⟨i, h₁, hi, hx⟩, hne⟩
    have hip : i ≠ p := fun heq => hne (by rw [← hx, heq])
    by_cases hin : i = n
    · exact ⟨p, hp, by omega, by rw [Heap.put_eq, ← hin, hx]⟩
    · exact ⟨i, h₁, by omega, by rw [Heap.put_of_ne hip, hx]⟩

private theorem distinct_put_last (hd : Distinct n h) (hpn : p ≤ n) :
    Distinct (n - 1) (Heap.put h p (h n)) := by
  intro i j hi₁ hi hj₁ hj heq
  by_cases hip : i = p <;> by_cases hjp : j = p
  · rw [hip, hjp]
  · rw [hip, Heap.put_eq, Heap.put_of_ne hjp] at heq
    have hnj := hd n j (by omega) (Nat.le_refl n) hj₁ (by omega) heq
    omega
  · rw [hjp, Heap.put_eq, Heap.put_of_ne hip] at heq
    have hin := hd i n hi₁ (by omega) (by omega) (Nat.le_refl n) heq
    omega
  · rw [Heap.put_of_ne hip, Heap.put_of_ne hjp] at heq
    exact hd i j hi₁ (by omega) hj₁ (by omega) heq

/-- The heap without one of its first three elements, whose key may have changed. -/
theorem Heap.popAt_ordered {pos : Nat} (key' : T → K) (hq : q.Ordered key) (hpos : pos + 1 ≤ q.currentSize)
    (htop : pos < 3) (hkeys : ∀ x, x ≠ q.h (pos + 1) → key' x = key x) :
    (q.popAt (byKey key') pos).Ordered key' ∧
      (∀ x, (q.popAt (byKey key') pos).Mem x ↔ q.Mem x ∧ x ≠ q.h (pos + 1)) ∧
      (q.popAt (byKey key') pos).currentSize = q.currentSize - 1 := by
  by_cases hone : q.currentSize ≤ 1
  · -- the only element
    have hpop : q.popAt (byKey key') pos = { q with currentSize := 0 } := by
      rw [Heap.popAt, if_pos hone]
    rw [hpop]
    refine ⟨⟨fun i h₂ hi => ?_, fun i j h₁ hi => ?_⟩, fun x => ?_, by show 0 = _; omega⟩
    · exact absurd hi (by show ¬ i ≤ 0; omega)
    · exact absurd hi (by show ¬ i ≤ 0; omega)
    · constructor
      · intro ⟨i, h₁, hi, _⟩
        exact absurd hi (by show ¬ i ≤ 0; omega)
      · intro ⟨⟨i, h₁, hi, hx⟩, hne⟩
        have hip : i = pos + 1 := by omega
        exact absurd (by rw [← hx, hip]) hne
  have hpop : q.popAt (byKey key') pos = {
      h := Heap.adjustLoop (byKey key') q.currentSize q.currentSize
        (Heap.put q.h (pos + 1) (q.h q.currentSize)) (pos + 1)
      currentSize := q.currentSize - 1 } := by
    rw [Heap.popAt, if_neg hone]
    rfl
  have hkeys' : ∀ i, 1 ≤ i → i ≤ q.currentSize → i ≠ pos + 1 → key' (q.h i) = key (q.h i) := by
    intro i h₁ hi hne
    exact hkeys _ fun heq => hne (hq.distinct i (pos + 1) h₁ hi (by omega) hpos heq)
  have hdone : IsHeap key' (Heap.adjustLoop (byKey key') q.currentSize q.currentSize
        (Heap.put q.h (pos + 1) (q.h q.currentSize)) (pos + 1)) (q.currentSize - 1) ∧
      Rearranged (q.currentSize - 1) (Heap.put q.h (pos + 1) (q.h q.currentSize))
        (Heap.adjustLoop (byKey key') q.currentSize q.currentSize
          (Heap.put q.h (pos + 1) (q.h q.currentSize)) (pos + 1)) := by
    by_cases hlast : pos + 1 = q.currentSize
    · -- the last place: nothing sinks
      obtain ⟨k, hk⟩ : ∃ k, q.currentSize = k + 1 := ⟨q.currentSize - 1, by omega⟩
      have hstay : Heap.adjustLoop (byKey key') q.currentSize q.currentSize q.h q.currentSize =
          q.h := by
        rw [hk, adjustLoop_step, if_neg (by omega)]
      rw [hlast, Heap.put_same, hstay]
      refine ⟨fun i h₂ hi => ?_, Rearranged.refl _ _⟩
      rw [hkeys' (i / 2) (by omega) (by omega) (by omega),
        hkeys' i (by omega) (by omega) (by omega)]
      exact hq.heap i h₂ (by omega)
    · apply adjustLoop_pop _ (by omega) (by omega) (by rw [Heap.put_eq, Heap.put_of_ne (by omega)]) (by omega)
      apply Sinking.of_heap (hq.heap.mono (Nat.sub_le _ 1)) (by omega)
      · intro i h₁ hi hne
        rw [Heap.put_of_ne hne]
        exact hkeys' i h₁ (by omega) hne
      · intro h₂ hle
        rw [Heap.put_eq, hkeys' q.currentSize (by omega) (Nat.le_refl _) (by omega),
          show (pos + 1) / 2 = 1 by omega]
        exact hq.heap.root_le (by omega) (Nat.le_refl _)
  rw [hpop]
  refine ⟨⟨hdone.1, hdone.2.distinct (distinct_put_last hq.distinct hpos)⟩, fun x => ?_, rfl⟩
  exact (hdone.2.holds x).trans (holds_put_last hq.distinct (by omega) hpos x)

/-! ## Rising -/

theorem riseLoop_rearranged (key : T → K) (fuel : Nat) (h : Nat → T) (hpn : p ≤ n) :
    Rearranged n h (Heap.riseLoop (byKey key) fuel h p) := by
  induction fuel generalizing h p with
  | zero => exact Rearranged.refl n h
  | succ fuel ih =>
    rw [Heap.riseLoop]
    split
    · split
      · have hswap : Rearranged n h (swapAt h p (p / 2)) :=
          Rearranged.swapAt (by omega) (by omega)
        exact hswap.trans (ih _ (by omega))
      · exact Rearranged.refl n h
    · exact Rearranged.refl n h

theorem riseLoop_heap (hr : Rising key h n p) (hpn : p ≤ n) (hfuel : p ≤ fuel) :
    IsHeap key (Heap.riseLoop (byKey key) fuel h p) n := by
  induction fuel generalizing h p with
  | zero => exact hr.done fun h₂ => by omega
  | succ fuel ih =>
    rw [Heap.riseLoop]
    split
    · rename_i h₁
      split
      · rename_i hlt
        rw [byKey_iff] at hlt
        exact ih (hr.swapAt h₁ hpn (le_of_lt hlt)) (by omega) (by omega)
      · rename_i hge
        rw [byKey_iff] at hge
        exact hr.done fun _ => le_of_not_gt hge
    · exact hr.done fun h₂ => by omega

/-- The heap with a new element, whose key may have changed. -/
theorem Heap.insert_ordered {x : T} (hq : q.Ordered key) (hx : ¬ q.Mem x)
    (hkeys : ∀ y, y ≠ x → key' y = key y) :
    (q.insert (byKey key') x).Ordered key' ∧
      (∀ y, (q.insert (byKey key') x).Mem y ↔ q.Mem y ∨ y = x) := by
  have hput : ∀ i, i ≤ q.currentSize → Heap.put q.h (q.currentSize + 1) x i = q.h i := by
    intro i hi
    exact Heap.put_of_ne (by omega)
  have hlast : Heap.put q.h (q.currentSize + 1) x (q.currentSize + 1) = x := by
    exact Heap.put_eq _ _ _
  have hheap : IsHeap key' q.h q.currentSize := by
    intro i h₂ hi
    rw [hkeys _ fun heq => hx ⟨i / 2, by omega, by omega, heq⟩,
      hkeys _ fun heq => hx ⟨i, by omega, hi, heq⟩]
    exact hq.heap i h₂ hi
  have hr := riseLoop_rearranged key' (q.currentSize + 1) (Heap.put q.h (q.currentSize + 1) x)
    (Nat.le_refl (q.currentSize + 1))
  have hdistinct : Distinct (q.currentSize + 1) (Heap.put q.h (q.currentSize + 1) x) := by
    intro i j hi₁ hi hj₁ hj heq
    by_cases hil : i = q.currentSize + 1 <;> by_cases hjl : j = q.currentSize + 1
    · rw [hil, hjl]
    · rw [hil, hlast, hput j (by omega)] at heq
      exact absurd ⟨j, hj₁, by omega, heq.symm⟩ hx
    · rw [hjl, hlast, hput i (by omega)] at heq
      exact absurd ⟨i, hi₁, by omega, heq⟩ hx
    · rw [hput i (by omega), hput j (by omega)] at heq
      exact hq.distinct i j hi₁ (by omega) hj₁ (by omega) heq
  refine ⟨⟨?_, hr.distinct hdistinct⟩, fun y => ?_⟩
  · exact riseLoop_heap (Rising.of_heap hheap hput) (Nat.le_refl _) (Nat.le_refl _)
  · apply (hr.holds y).trans
    constructor
    · intro ⟨i, h₁, hi, hy⟩
      by_cases hil : i = q.currentSize + 1
      · rw [hil, hlast] at hy
        exact Or.inr hy.symm
      · rw [hput i (by omega)] at hy
        exact Or.inl ⟨i, h₁, by omega, hy⟩
    · intro hy
      cases hy with
      | inl hmem =>
        obtain ⟨i, h₁, hi, hy⟩ := hmem
        exact ⟨i, h₁, by omega, by rw [hput i hi, hy]⟩
      | inr heq => exact ⟨q.currentSize + 1, by omega, Nat.le_refl _, by rw [hlast, heq]⟩

end DBStream.Native
