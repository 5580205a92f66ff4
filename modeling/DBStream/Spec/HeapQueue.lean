import DBStream.Spec.HeapCorrect

/-!
# The heap is a priority queue

Runs of calls from a new heap, each with the multiset its calls prescribe.  `insert` and `pop`
are always right.  The others are right where the sift finds what it looks for: `adjust` passes by
a right child at the last place (`Missed`), and neither `popAt` nor `replaceAt` lets an element
rise that is smaller than its parent.  The array of the model has no end, so the runs include
those within any capacity.
-/

namespace DBStream.Native

open BinaryHeap

variable {T K : Type} [LinearOrder K] {key : T → K} {h : Nat → T} {q : Heap T}
  {n p m fuel : Nat} {s : Multiset T}

/-- A call that changes the heap. -/
inductive HeapCall (T : Type) where
  | insert (data : T)
  | pop
  | popAndInsert (data : T)
  | popAt (pos : Nat)
  | replaceAt (data : T) (pos : Nat)
  deriving DecidableEq

def Heap.call (compare : T → T → Bool) (q : Heap T) : HeapCall T → Heap T
  | .insert data => q.insert compare data
  | .pop => q.pop compare
  | .popAndInsert data => q.popAndInsert compare data
  | .popAt pos => q.popAt compare pos
  | .replaceAt data pos => q.replaceAt compare data pos

/-- The position of the call, if it has one, is in use. -/
def HeapCall.Occupied (q : Heap T) : HeapCall T → Prop
  | .popAt pos | .replaceAt _ pos => pos < q.currentSize
  | _ => True

instance (q : Heap T) (c : HeapCall T) : Decidable (c.Occupied q) :=
  match c with
  | .popAt pos => inferInstanceAs (Decidable (pos < q.currentSize))
  | .replaceAt _ pos => inferInstanceAs (Decidable (pos < q.currentSize))
  | .insert _ | .pop | .popAndInsert _ => isTrue trivial

/-- What the elements are to be: `pop` takes the one `get` returns, `popAt` and `replaceAt` the
    one at their position. -/
def HeapCall.prescribe [DecidableEq T] (q : Heap T) (s : Multiset T) : HeapCall T → Multiset T
  | .insert data => data ::ₘ s
  | .pop => s.erase q.get
  | .popAndInsert data => data ::ₘ s.erase q.get
  | .popAt pos => s.erase (q.h (pos + 1))
  | .replaceAt data pos => data ::ₘ s.erase (q.h (pos + 1))

/-- What a caller of the queue of `s` sees: `get` is least, `getSecond` is least among the others,
    with its position. -/
structure Heap.PriorityQueue [DecidableEq T] (key : T → K) (q : Heap T) (s : Multiset T) :
    Prop where
  elements : contents q.currentSize q.h = s
  get : s ≠ 0 → q.get ∈ s ∧ ∀ x ∈ s, key q.get ≤ key x
  second : ∀ x pos, q.getSecond (byKey key) = some (x, pos) →
    (0 < pos ∧ pos < q.currentSize ∧ q.h (pos + 1) = x) ∧
      x ∈ s.erase q.get ∧ ∀ y ∈ s.erase q.get, key x ≤ key y
  noSecond : q.getSecond (byKey key) = none → s.card ≤ 1

/-- The runs from a new heap, whose array holds anything, with calls that meet `P`. -/
inductive HeapRun [DecidableEq T] (key : T → K) (P : Heap T → HeapCall T → Prop) :
    Heap T → Multiset T → Prop
  | start (h : Nat → T) : HeapRun key P { h, currentSize := 0 } 0
  | call {q : Heap T} {s : Multiset T} (c : HeapCall T) (hrun : HeapRun key P q s)
      (hocc : c.Occupied q) (hP : P q c) :
      HeapRun key P (q.call (byKey key) c) (c.prescribe q s)

/-! ## The way down -/

/-- A sift that goes down all the way comes from `p` to `m`: each place on the way is the lesser
    child of the one before. -/
inductive ComesTo (key : T → K) (n : Nat) (h : Nat → T) : Nat → Nat → Prop
  | here (p : Nat) : ComesTo key n h p p
  | down {p m : Nat} (rest : ComesTo key n h (lesserChild key n h p) m) : ComesTo key n h p m

theorem ComesTo.le (hc : ComesTo key n h p m) : p ≤ m := by
  induction hc with
  | here p => exact Nat.le_refl p
  | @down p m rest ih =>
    have hchild := lesserChild_eq key n h p
    omega

theorem ComesTo.congr {h' : Nat → T} (hc : ComesTo key n h p m)
    (hsame : ∀ i, p < i → h' i = h i) (hp : 1 ≤ p) : ComesTo key n h' p m := by
  induction hc with
  | here p => exact ComesTo.here p
  | @down p m rest ih =>
    have hchild := lesserChild_eq key n h p
    have hlesser : lesserChild key n h' p = lesserChild key n h p := by
      unfold lesserChild
      rw [hsame (2 * p) (by omega), hsame (2 * p + 1) (by omega)]
    apply ComesTo.down
    rw [hlesser]
    exact ih (fun i hi => hsame i (by omega)) (by omega)

/-- The sift from `p` comes to the parent of a right child at the last place, which is smaller than
    its sibling and than the element, and is not looked at. -/
def Missed (key : T → K) (n : Nat) (h : Nat → T) (p : Nat) : Prop :=
  ∃ m, n = 2 * m + 1 ∧ ComesTo key n h p m ∧ key (h n) < key (h (n - 1)) ∧ key (h n) < key (h p)

theorem sinkFits_of_not_missed (hp : 1 ≤ p) (hmissed : ¬ Missed key n h p) :
    SinkFits key n fuel h p := by
  induction fuel generalizing h p with
  | zero => trivial
  | succ fuel ih =>
    intro hle
    have hc := lesserChild_eq key n h p
    constructor
    · intro hlast hless
      apply le_of_not_gt
      intro hlt
      apply hmissed
      refine ⟨p, hlast.symm, ComesTo.here p, ?_, ?_⟩
      · rw [← hlast]
        exact hless
      · rw [← hlast]
        exact hlt
    · intro _
      apply ih (by omega)
      -- what is missed from the child on is missed from `p` on
      intro ⟨m, hm, hway, hless, hlt⟩
      have hcm := hway.le
      rw [swapAt_right] at hlt
      rw [swapAt_of_ne (k := n) (by omega) (by omega)] at hlt hless
      rw [swapAt_of_ne (k := n - 1) (by omega) (by omega)] at hless
      refine hmissed ⟨m, hm, ComesTo.down (hway.congr ?_ (by omega)), hless, hlt⟩
      intro i hi
      exact (swapAt_of_ne (by omega) (by omega)).symm

/-! ## The calls -/

/-- Where the call finds what it looks for: no child is missed, and nothing has to rise from an
    inner place. -/
def HeapCall.Fits (key : T → K) (q : Heap T) : HeapCall T → Prop
  | .insert _ | .pop => True
  | .popAndInsert data => ¬ Missed key q.currentSize (Heap.put q.h 1 data) 1
  | .popAt pos => 0 < pos → key (q.h ((pos + 1) / 2)) ≤ key (q.h q.currentSize)
  | .replaceAt data pos =>
    (0 < pos → key (q.h ((pos + 1) / 2)) ≤ key data) ∧
      ¬ Missed key q.currentSize (Heap.put q.h (pos + 1) data) (pos + 1)

private theorem insert_heap {data : T} (hq : IsHeap key q.h q.currentSize) :
    IsHeap key (q.insert (byKey key) data).h (q.insert (byKey key) data).currentSize ∧
      contents (q.insert (byKey key) data).currentSize (q.insert (byKey key) data).h =
        data ::ₘ contents q.currentSize q.h := by
  have hput : ∀ i, i ≤ q.currentSize → Heap.put q.h (q.currentSize + 1) data i = q.h i := by
    intro i hi
    exact Heap.put_of_ne (by omega)
  have hr := riseLoop_rearranged key (q.currentSize + 1) (Heap.put q.h (q.currentSize + 1) data)
    (Nat.le_refl (q.currentSize + 1))
  constructor
  · exact riseLoop_heap (Rising.of_heap hq hput) (Nat.le_refl _) (Nat.le_refl _)
  · rw [Heap.insert, hr.contents, contents_succ, Heap.put_eq,
      contents_congr fun i _ hi => hput i hi]

theorem replaceAt_heap {data : T} (pos : Nat) (hq : IsHeap key q.h q.currentSize)
    (hpos : pos + 1 ≤ q.currentSize)
    (hparent : 0 < pos → key (q.h ((pos + 1) / 2)) ≤ key data)
    (hfits : ¬ Missed key q.currentSize (Heap.put q.h (pos + 1) data) (pos + 1)) :
    IsHeap key (q.replaceAt (byKey key) data pos).h
        (q.replaceAt (byKey key) data pos).currentSize ∧
      q.h (pos + 1) ::ₘ contents (q.replaceAt (byKey key) data pos).currentSize
          (q.replaceAt (byKey key) data pos).h =
        data ::ₘ contents q.currentSize q.h := by
  have hsize : (q.replaceAt (byKey key) data pos).currentSize = q.currentSize := by
    simp only [Heap.replaceAt]
    rw [if_neg (by omega)]
  have hsink : Sinking key (Heap.put q.h (pos + 1) data) q.currentSize (pos + 1) := by
    apply Sinking.of_heap hq (by omega)
    · intro i _ _ hne
      rw [Heap.put_of_ne hne]
    · intro h₂ _
      rw [Heap.put_eq]
      exact hparent (by omega)
  have hr := adjustLoop_rearranged key q.currentSize q.currentSize
    (Heap.put q.h (pos + 1) data) (p := pos + 1) (by omega)
  rw [hsize]
  constructor
  · exact adjustLoop_heap hsink (by omega) (by omega)
      (sinkFits_of_not_missed (by omega) hfits)
  · rw [Heap.replaceAt, Heap.adjust, hr.contents]
    exact contents_written (by omega) hpos (Heap.put_eq _ _ _)
      fun i hi => Heap.put_of_ne hi

/-- Where the last element may go to the place that is left, a heap stays one. -/
theorem popAt_heap (pos : Nat) (hq : IsHeap key q.h q.currentSize) (hpos : pos + 1 ≤ q.currentSize)
    (hparent : 0 < pos → key (q.h ((pos + 1) / 2)) ≤ key (q.h q.currentSize)) :
    IsHeap key (q.popAt (byKey key) pos).h (q.popAt (byKey key) pos).currentSize ∧
      q.h (pos + 1) ::ₘ contents (q.popAt (byKey key) pos).currentSize
          (q.popAt (byKey key) pos).h =
        contents q.currentSize q.h := by
  by_cases hone : q.currentSize ≤ 1
  · -- the only element
    have hn : q.currentSize = 1 := by omega
    have hp : pos = 0 := by omega
    rw [Heap.popAt, if_pos hone, hn, hp]
    exact ⟨IsHeap.of_le_one _ (Nat.zero_le 1), rfl⟩
  obtain ⟨k, hk⟩ : ∃ k, q.currentSize = k + 1 := ⟨q.currentSize - 1, by omega⟩
  have hdone : IsHeap key (Heap.adjustLoop (byKey key) q.currentSize q.currentSize
        (Heap.put q.h (pos + 1) (q.h q.currentSize)) (pos + 1)) (q.currentSize - 1) ∧
      Rearranged (q.currentSize - 1) (Heap.put q.h (pos + 1) (q.h q.currentSize))
        (Heap.adjustLoop (byKey key) q.currentSize q.currentSize
          (Heap.put q.h (pos + 1) (q.h q.currentSize)) (pos + 1)) := by
    by_cases hlast : pos + 1 = q.currentSize
    · -- the last place: nothing sinks
      have hstay : Heap.adjustLoop (byKey key) q.currentSize q.currentSize q.h q.currentSize =
          q.h := by
        rw [hk, adjustLoop_step, if_neg (by omega)]
      rw [hlast, Heap.put_same, hstay]
      exact ⟨hq.mono (Nat.sub_le _ 1), Rearranged.refl _ _⟩
    · apply adjustLoop_pop _ (by omega) (by omega)
        (by rw [Heap.put_eq, Heap.put_of_ne (by omega)]) (by omega)
      apply Sinking.of_heap (hq.mono (Nat.sub_le _ 1)) (by omega)
      · intro i _ _ hne
        rw [Heap.put_of_ne hne]
      · intro h₂ _
        rw [Heap.put_eq]
        exact hparent (by omega)
  rw [Heap.popAt, if_neg hone]
  refine ⟨hdone.1, ?_⟩
  show q.h (pos + 1) ::ₘ contents (q.currentSize - 1) (Heap.adjustLoop _ _ _ _ _) = _
  rw [hdone.2.contents, hk, Nat.add_sub_cancel, contents_succ]
  by_cases hlast : pos + 1 = k + 1
  · rw [hlast, Heap.put_same]
  · exact contents_written (by omega) (by omega) (Heap.put_eq _ _ _) fun i hi => Heap.put_of_ne hi

theorem mem_behind {x : T} :
    x ∈ ((List.range' 2 (n - 1)).map h : Multiset T) ↔ ∃ i, 2 ≤ i ∧ i ≤ n ∧ h i = x := by
  simp only [Multiset.mem_coe, List.mem_map, List.mem_range'_1]
  constructor
  · intro ⟨i, hi, hx⟩
    exact ⟨i, hi.1, by omega, hx⟩
  · intro ⟨i, h₂, hi, hx⟩
    exact ⟨i, ⟨h₂, by omega⟩, hx⟩

variable [DecidableEq T]

theorem eq_cons_erase {x y : T} {t : Multiset T} (hy : y ∈ s) (ht : y ::ₘ t = x ::ₘ s) :
    t = x ::ₘ s.erase y := by
  have hs : y ::ₘ t = y ::ₘ x ::ₘ s.erase y := by
    rw [ht, Multiset.cons_swap, Multiset.cons_erase hy]
  exact (Multiset.cons_inj_right y).mp hs

/-- A call keeps the heap, and changes its content as the queue prescribes. -/
theorem call_heap (c : HeapCall T) (hq : IsHeap key q.h q.currentSize) (hocc : c.Occupied q)
    (hfits : c.Fits key q) :
    IsHeap key (q.call (byKey key) c).h (q.call (byKey key) c).currentSize ∧
      contents (q.call (byKey key) c).currentSize (q.call (byKey key) c).h =
        c.prescribe q (contents q.currentSize q.h) := by
  cases c with
  | insert data => exact insert_heap hq
  | pop =>
    by_cases hempty : q.currentSize = 0
    · have hpop : q.pop (byKey key) = { q with currentSize := 0 } := by
        rw [Heap.pop, Heap.popAt, if_pos (by omega)]
      rw [Heap.call, hpop, HeapCall.prescribe, hempty]
      exact ⟨IsHeap.of_le_one _ (Nat.zero_le 1), rfl⟩
    · have hdone := popAt_heap 0 hq (by omega) (fun h => absurd h (by decide))
      refine ⟨hdone.1, ?_⟩
      rw [HeapCall.prescribe, ← hdone.2]
      exact (Multiset.erase_cons_head _ _).symm
  | popAndInsert data =>
    by_cases hempty : q.currentSize = 0
    · -- nothing sinks in a heap of one
      have hsingle : q.popAndInsert (byKey key) data =
          { h := Heap.put q.h 1 data, currentSize := 1 } := by
        rw [Heap.popAndInsert, Heap.replaceAt, hempty]
        rfl
      rw [Heap.call, hsingle, HeapCall.prescribe, hempty]
      exact ⟨IsHeap.of_le_one _ (Nat.le_refl 1), rfl⟩
    · have hdone := replaceAt_heap 0 hq (by omega) (fun h => absurd h (by decide)) hfits
      refine ⟨hdone.1, ?_⟩
      exact eq_cons_erase (mem_contents.mpr ⟨1, Nat.le_refl 1, by omega, rfl⟩) hdone.2
  | popAt pos =>
    have hdone := popAt_heap pos hq hocc hfits
    refine ⟨hdone.1, ?_⟩
    rw [HeapCall.prescribe, ← hdone.2]
    exact (Multiset.erase_cons_head _ _).symm
  | replaceAt data pos =>
    have hpos : pos + 1 ≤ q.currentSize := hocc
    have hdone := replaceAt_heap pos hq hpos hfits.1 hfits.2
    refine ⟨hdone.1, ?_⟩
    exact eq_cons_erase (mem_contents.mpr ⟨pos + 1, by omega, hpos, rfl⟩) hdone.2

/-! ## What a caller sees -/

private theorem erase_root (hn : 1 ≤ n) :
    (contents n h).erase (h 1) = ((List.range' 2 (n - 1)).map h : Multiset T) := by
  rw [contents_root hn, Multiset.erase_cons_head]

/-- A heap is the priority queue of its elements. -/
theorem Heap.PriorityQueue.of_heap (hq : IsHeap key q.h q.currentSize) :
    q.PriorityQueue key (contents q.currentSize q.h) where
  elements := rfl
  get := by
    intro hne
    have hn : 1 ≤ q.currentSize := by
      by_contra hzero
      have hn : q.currentSize = 0 := by omega
      rw [hn] at hne
      exact hne rfl
    refine ⟨mem_contents.mpr ⟨1, Nat.le_refl 1, hn, rfl⟩, ?_⟩
    intro x hx
    obtain ⟨i, h₁, hi, rfl⟩ := mem_contents.mp hx
    exact hq.root_le h₁ hi
  second := by
    intro x pos hsecond
    unfold Heap.getSecond at hsecond
    split at hsecond
    · exact absurd hsecond (by simp)
    rw [Heap.get, erase_root (by omega)]
    split at hsecond
    · rename_i hleft
      obtain ⟨rfl, rfl⟩ : q.h 2 = x ∧ 1 = pos := by simpa using hsecond
      refine ⟨⟨by omega, by omega, rfl⟩, mem_behind.mpr ⟨2, by omega, by omega, rfl⟩, ?_⟩
      intro y hy
      obtain ⟨i, h₂, hi, rfl⟩ := mem_behind.mp hy
      cases hq.child_le h₂ hi with
      | inl hle => exact hle
      | inr hle =>
        -- the third place is in use, so the two were compared
        have hlt : key (q.h 2) < key (q.h 3) := by
          cases hleft with
          | inl htwo => omega
          | inr hlt => exact byKey_iff.mp hlt
        exact (le_of_lt hlt).trans hle.2
    · rename_i hright
      obtain ⟨rfl, rfl⟩ : q.h 3 = x ∧ 2 = pos := by simpa using hsecond
      rw [byKey_iff] at hright
      refine ⟨⟨by omega, by omega, rfl⟩, mem_behind.mpr ⟨3, by omega, by omega, rfl⟩, ?_⟩
      intro y hy
      obtain ⟨i, h₂, hi, rfl⟩ := mem_behind.mp hy
      have hthree : key (q.h 3) ≤ key (q.h 2) := le_of_not_gt fun hlt => hright (Or.inr hlt)
      cases hq.child_le h₂ hi with
      | inl hle => exact hthree.trans hle
      | inr hle => exact hle.2
  noSecond := by
    intro hnone
    rw [card_contents]
    unfold Heap.getSecond at hnone
    split at hnone
    · assumption
    · split at hnone <;> exact absurd hnone (by simp)

/-! ## Runs -/

private theorem run_heap (hrun : HeapRun key (fun q c => c.Fits key q) q s) :
    IsHeap key q.h q.currentSize ∧ contents q.currentSize q.h = s := by
  induction hrun with
  | start h => exact ⟨IsHeap.of_le_one _ (Nat.zero_le 1), rfl⟩
  | call c hrun hocc hfits ih =>
    rw [← ih.2]
    exact call_heap c ih.1 hocc hfits

/-- Where each call fits, the heap is the queue of the elements prescribed. -/
theorem priorityQueue_of_run (hrun : HeapRun key (fun q c => c.Fits key q) q s) :
    q.PriorityQueue key s := by
  have hdone := run_heap hrun
  rw [← hdone.2]
  exact Heap.PriorityQueue.of_heap hdone.1

/-- Two inserted, one replaced at each of the places, and both gone again. -/
theorem priorityQueue_of_run_calls :
    (([.insert 5, .insert 3, .popAndInsert 7, .replaceAt 6 1, .popAt 1, .insert 4, .pop].foldl
      (Heap.call (byKey id)) { h := fun _ => 0, currentSize := 0 } : Heap Nat)).PriorityQueue id
        {5} := by
  have hodd : ∀ {h : Nat → Nat} {p : Nat}, ¬ Missed id 2 h p := by
    intro h p ⟨m, hm, _⟩
    omega
  exact priorityQueue_of_run (.call .pop (.call (.insert 4) (.call (.popAt 1)
    (.call (.replaceAt 6 1) (.call (.popAndInsert 7) (.call (.insert 3) (.call (.insert 5)
      (.start fun _ => 0) trivial trivial) trivial trivial) trivial hodd) (by decide)
        ⟨fun _ => by decide, hodd⟩) (by decide) (fun _ => by decide)) trivial trivial)
          trivial trivial)

/-- `popAndInsert` on three elements does not see the last of them. -/
theorem second_passed_by :
    ¬ ∀ (q : Heap Nat) (s : Multiset Nat), HeapRun id (fun _ _ => True) q s →
      q.PriorityQueue id s := by
  intro hall
  have hrun : HeapRun (T := Nat) id (fun _ _ => True) _ _ :=
    .call (.popAndInsert 4) (.call (.insert 2) (.call (.insert 3) (.call (.insert 1)
      (.start fun _ => 0) trivial trivial) trivial trivial) trivial trivial) trivial trivial
  have hleast := ((hall _ _ hrun).get (by decide)).2 2 (by decide)
  exact absurd hleast (by decide)

end DBStream.Native
