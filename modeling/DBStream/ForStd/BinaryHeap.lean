import Mathlib.Data.Multiset.MapFold

/-!
# Binary heaps in an array

A heap is a function on the places `1..n`, with the children of place `i` at `2 * i` and
`2 * i + 1`.  The order is that of a key, so it can be stated again after keys have changed.
`Sinking` and `Rising` are the states inside the two sifts: a heap but for one place, whose
element may be too large for its children, or too small for its parent.  A sift only rearranges
the places (`Rearranged`).
-/

namespace BinaryHeap

variable {T K : Type} [LinearOrder K] {key : T → K} {h h' h'' : Nat → T} {n p c : Nat}

/-- Two places exchanged. -/
def swapAt (h : Nat → T) (i j : Nat) : Nat → T := h ∘ Equiv.swap i j

@[simp] theorem swapAt_left (h : Nat → T) (i j : Nat) : swapAt h i j i = h j := by
  simp [swapAt]

@[simp] theorem swapAt_right (h : Nat → T) (i j : Nat) : swapAt h i j j = h i := by
  simp [swapAt]

theorem swapAt_of_ne {i j k : Nat} (hi : k ≠ i) (hj : k ≠ j) : swapAt h i j k = h k := by
  simp [swapAt, Equiv.swap_apply_of_ne_of_ne hi hj]

/-! ## The elements -/

/-- The places `1..n` of `h'` hold the elements those of `h` hold. -/
def Rearranged (n : Nat) (h h' : Nat → T) : Prop :=
  ∃ σ : Equiv.Perm Nat, (∀ i, (1 ≤ σ i ∧ σ i ≤ n) ↔ (1 ≤ i ∧ i ≤ n)) ∧ h' = h ∘ σ

theorem Rearranged.refl (n : Nat) (h : Nat → T) : Rearranged n h h :=
  ⟨Equiv.refl _, fun _ => Iff.rfl, rfl⟩

theorem Rearranged.trans (h₁ : Rearranged n h h') (h₂ : Rearranged n h' h'') :
    Rearranged n h h'' := by
  obtain ⟨σ, hσ, rfl⟩ := h₁
  obtain ⟨τ, hτ, rfl⟩ := h₂
  exact ⟨τ.trans σ, fun i => (hσ (τ i)).trans (hτ i), rfl⟩

theorem Rearranged.swapAt {i j : Nat} (hi : 1 ≤ i ∧ i ≤ n) (hj : 1 ≤ j ∧ j ≤ n) :
    Rearranged n h (swapAt h i j) := by
  refine ⟨Equiv.swap i j, ?_, rfl⟩
  intro k
  by_cases hki : k = i
  · simp [hki, hi, hj]
  by_cases hkj : k = j
  · simp [hkj, hi, hj]
  rw [Equiv.swap_apply_of_ne_of_ne hki hkj]

/-- `x` is at one of the places. -/
def Holds (n : Nat) (h : Nat → T) (x : T) : Prop := ∃ i, 1 ≤ i ∧ i ≤ n ∧ h i = x

/-- No two of the places hold the same element. -/
def Distinct (n : Nat) (h : Nat → T) : Prop :=
  ∀ i j, 1 ≤ i → i ≤ n → 1 ≤ j → j ≤ n → h i = h j → i = j

theorem Rearranged.holds (hr : Rearranged n h h') (x : T) : Holds n h' x ↔ Holds n h x := by
  obtain ⟨σ, hσ, rfl⟩ := hr
  constructor
  · intro ⟨i, h₁, h₂, hx⟩
    exact ⟨σ i, ((hσ i).mpr ⟨h₁, h₂⟩).1, ((hσ i).mpr ⟨h₁, h₂⟩).2, hx⟩
  · intro ⟨i, h₁, h₂, hx⟩
    have hi : 1 ≤ σ.symm i ∧ σ.symm i ≤ n := by
      rw [← hσ, σ.apply_symm_apply]
      exact ⟨h₁, h₂⟩
    exact ⟨σ.symm i, hi.1, hi.2, by simpa using hx⟩

theorem Rearranged.distinct (hr : Rearranged n h h') (hd : Distinct n h) : Distinct n h' := by
  obtain ⟨σ, hσ, rfl⟩ := hr
  intro i j hi₁ hi₂ hj₁ hj₂ heq
  have hi := (hσ i).mpr ⟨hi₁, hi₂⟩
  have hj := (hσ j).mpr ⟨hj₁, hj₂⟩
  exact σ.injective (hd _ _ hi.1 hi.2 hj.1 hj.2 heq)

/-- The elements at the places, each as often as it is there. -/
def contents (n : Nat) (h : Nat → T) : Multiset T := ↑((List.range' 1 n).map h)

theorem contents_succ (n : Nat) (h : Nat → T) : contents (n + 1) h = h (n + 1) ::ₘ contents n h := by
  have hend : (List.range' 1 (n + 1)).map h = (List.range' 1 n).map h ++ [h (n + 1)] := by
    rw [List.range'_1_concat, List.map_append, Nat.add_comm 1 n]
    rfl
  rw [contents, hend]
  exact Multiset.coe_eq_coe.mpr (List.perm_append_singleton _ _)

theorem contents_root (hn : 1 ≤ n) (h : Nat → T) :
    contents n h = h 1 ::ₘ ((List.range' 2 (n - 1)).map h : Multiset T) := by
  obtain ⟨m, rfl⟩ : ∃ m, n = m + 1 := ⟨n - 1, by omega⟩
  rfl

theorem card_contents (n : Nat) (h : Nat → T) : (contents n h).card = n := by
  simp [contents]

theorem mem_contents {x : T} : x ∈ contents n h ↔ Holds n h x := by
  simp only [contents, Multiset.mem_coe, List.mem_map, List.mem_range'_1, Holds]
  constructor
  · intro ⟨i, ⟨h₁, hi⟩, hx⟩
    exact ⟨i, h₁, by omega, hx⟩
  · intro ⟨i, h₁, hi, hx⟩
    exact ⟨i, ⟨h₁, by omega⟩, hx⟩

theorem contents_congr (hsame : ∀ i, 1 ≤ i → i ≤ n → h' i = h i) :
    contents n h' = contents n h := by
  unfold contents
  congr 1
  apply List.map_congr_left
  intro i hi
  rw [List.mem_range'_1] at hi
  exact hsame i hi.1 (by omega)

theorem contents_written {x : T} (hp : 1 ≤ p) (hpn : p ≤ n) (hx : h' p = x)
    (hsame : ∀ i, i ≠ p → h' i = h i) : h p ::ₘ contents n h' = x ::ₘ contents n h := by
  induction n with
  | zero => omega
  | succ n ih =>
    rw [contents_succ, contents_succ]
    by_cases hlast : p = n + 1
    · subst hlast
      rw [hx, contents_congr fun i _ hi => hsame i (by omega)]
      exact Multiset.cons_swap _ _ _
    · rw [hsame (n + 1) (Ne.symm hlast), Multiset.cons_swap, ih (by omega)]
      exact Multiset.cons_swap _ _ _

theorem Rearranged.contents (hr : Rearranged n h h') : contents n h' = contents n h := by
  obtain ⟨σ, hσ, rfl⟩ := hr
  have hperm : ((List.range' 1 n).map σ).Perm (List.range' 1 n) := by
    rw [List.perm_ext_iff_of_nodup (List.Nodup.map σ.injective List.nodup_range') List.nodup_range']
    intro i
    rw [List.mem_map]
    constructor
    · intro ⟨j, hj, hji⟩
      rw [List.mem_range'_1] at hj ⊢
      have hi := (hσ j).mpr ⟨hj.1, by omega⟩
      omega
    · intro hi
      rw [List.mem_range'_1] at hi
      have hj : 1 ≤ σ.symm i ∧ σ.symm i ≤ n := by
        rw [← hσ, σ.apply_symm_apply]
        omega
      exact ⟨σ.symm i, by rw [List.mem_range'_1]; omega, σ.apply_symm_apply i⟩
  rw [BinaryHeap.contents, ← List.map_map]
  exact Multiset.coe_eq_coe.mpr (hperm.map h)

/-! ## The order -/

/-- No element is smaller than its parent. -/
def IsHeap (key : T → K) (h : Nat → T) (n : Nat) : Prop :=
  ∀ i, 2 ≤ i → i ≤ n → key (h (i / 2)) ≤ key (h i)

theorem IsHeap.of_le_one (h : Nat → T) (hn : n ≤ 1) : IsHeap key h n := by
  intro i h₂ hi
  omega

theorem IsHeap.root_le (hh : IsHeap key h n) {i : Nat} (h₁ : 1 ≤ i) (hn : i ≤ n) :
    key (h 1) ≤ key (h i) := by
  induction i using Nat.strongRecOn with
  | ind i ih =>
    by_cases hi : i = 1
    · rw [hi]
    · exact (ih (i / 2) (by omega) (by omega) (by omega)).trans (hh i (by omega) hn)

theorem IsHeap.child_le (hh : IsHeap key h n) {i : Nat} (h₂ : 2 ≤ i) (hn : i ≤ n) :
    key (h 2) ≤ key (h i) ∨ 3 ≤ n ∧ key (h 3) ≤ key (h i) := by
  induction i using Nat.strongRecOn with
  | ind i ih =>
    by_cases hi₂ : i = 2
    · exact Or.inl (by rw [hi₂])
    by_cases hi₃ : i = 3
    · exact Or.inr ⟨by omega, by rw [hi₃]⟩
    · have hup := hh i h₂ hn
      cases ih (i / 2) (by omega) (by omega) (by omega) with
      | inl hle => exact Or.inl (hle.trans hup)
      | inr hle => exact Or.inr ⟨hle.1, hle.2.trans hup⟩

theorem IsHeap.mono (hh : IsHeap key h n) {m : Nat} (hm : m ≤ n) : IsHeap key h m :=
  fun i h₂ hi => hh i h₂ (Nat.le_trans hi hm)

/-- A heap but for place `p`, whose element may be too large. -/
structure Sinking (key : T → K) (h : Nat → T) (n p : Nat) : Prop where
  others : ∀ i, 2 ≤ i → i ≤ n → i / 2 ≠ p → key (h (i / 2)) ≤ key (h i)
  above : ∀ i, i ≤ n → i / 2 = p → 2 ≤ p → key (h (p / 2)) ≤ key (h i)

/-- Any element in the place of one whose children are not smaller than its parent; the keys of
    the others are the same. -/
theorem Sinking.of_heap {key' : T → K} (hh : IsHeap key h n) (hp : 1 ≤ p)
    (hsame : ∀ i, 1 ≤ i → i ≤ n → i ≠ p → key' (h' i) = key (h i))
    (hparent : 2 ≤ p → p ≤ n → key (h (p / 2)) ≤ key' (h' p)) : Sinking key' h' n p where
  others := by
    intro i h₂ hi hne
    rw [hsame (i / 2) (by omega) (by omega) hne]
    by_cases hip : i = p
    · subst hip
      exact hparent h₂ hi
    · rw [hsame i (by omega) hi hip]
      exact hh i h₂ hi
  above := by
    intro i hi hip h₂
    rw [hsame (p / 2) (by omega) (by omega) (by omega), hsame i (by omega) hi (by omega)]
    have hi' := hh i (by omega) hi
    rw [hip] at hi'
    exact (hh p h₂ (by omega)).trans hi'

theorem Sinking.done (hs : Sinking key h n p)
    (hchildren : ∀ i, i ≤ n → i / 2 = p → 2 ≤ i → key (h p) ≤ key (h i)) : IsHeap key h n := by
  intro i h₂ hi
  by_cases hip : i / 2 = p
  · rw [hip]
    exact hchildren i hi hip h₂
  · exact hs.others i h₂ hi hip

theorem Sinking.swapAt (hs : Sinking key h n p) (hp : 1 ≤ p) (hc : c / 2 = p) (hcn : c ≤ n)
    (hle : key (h c) ≤ key (h p))
    (hmin : ∀ i, i ≤ n → i / 2 = p → key (h c) ≤ key (h i)) :
    Sinking key (swapAt h p c) n c where
  others := by
    intro i h₂ hi hne
    by_cases hic : i = c
    · rw [hic, hc, swapAt_left, swapAt_right]
      exact hle
    by_cases hip : i / 2 = p
    · rw [hip, swapAt_left, swapAt_of_ne (by omega) hic]
      exact hmin i hi hip
    by_cases hpi : i = p
    · subst hpi
      rw [swapAt_left, swapAt_of_ne (by omega) (by omega)]
      exact hs.above c hcn hc h₂
    · rw [swapAt_of_ne hip hne, swapAt_of_ne hpi hic]
      exact hs.others i h₂ hi hip
  above := by
    intro i hi hic _
    rw [hc, swapAt_left, swapAt_of_ne (by omega) (by omega), ← hic]
    exact hs.others i (by omega) hi (by omega)

/-- A heap but for place `p`, whose element may be too small. -/
structure Rising (key : T → K) (h : Nat → T) (n p : Nat) : Prop where
  others : ∀ i, 2 ≤ i → i ≤ n → i ≠ p → key (h (i / 2)) ≤ key (h i)
  above : ∀ i, i ≤ n → i / 2 = p → 2 ≤ p → key (h (p / 2)) ≤ key (h i)

theorem Rising.of_heap (hh : IsHeap key h n) (hsame : ∀ i, i ≤ n → h' i = h i) :
    Rising key h' (n + 1) (n + 1) where
  others := by
    intro i h₂ hi hne
    rw [hsame i (by omega), hsame (i / 2) (by omega)]
    exact hh i h₂ (by omega)
  above := by
    intro i hi hip h₂
    omega

theorem Rising.done (hr : Rising key h n p) (hparent : 2 ≤ p → key (h (p / 2)) ≤ key (h p)) :
    IsHeap key h n := by
  intro i h₂ hi
  by_cases hip : i = p
  · subst hip
    exact hparent h₂
  · exact hr.others i h₂ hi hip

theorem Rising.swapAt (hr : Rising key h n p) (h₂ : 2 ≤ p) (hpn : p ≤ n)
    (hlt : key (h p) ≤ key (h (p / 2))) : Rising key (swapAt h p (p / 2)) n (p / 2) where
  others := by
    intro i h₂' hi hne
    by_cases hip : i = p
    · rw [hip, swapAt_left, swapAt_right]
      exact hlt
    rw [swapAt_of_ne hip hne]
    by_cases hip₂ : i / 2 = p
    · rw [hip₂, swapAt_left]
      exact hr.above i hi hip₂ h₂
    by_cases hip₃ : i / 2 = p / 2
    · -- the sibling
      rw [hip₃, swapAt_right]
      have hi' := hr.others i h₂' hi hip
      rw [hip₃] at hi'
      exact hlt.trans hi'
    · rw [swapAt_of_ne hip₂ hip₃]
      exact hr.others i h₂' hi hip
  above := by
    intro i hi hip h₂'
    rw [swapAt_of_ne (k := p / 2 / 2) (by omega) (by omega)]
    have hup := hr.others (p / 2) h₂' (by omega) (by omega)
    by_cases hip' : i = p
    · rw [hip', swapAt_left]
      exact hup
    · rw [swapAt_of_ne hip' (by omega)]
      have hi' := hr.others i (by omega) hi hip'
      rw [hip] at hi'
      exact hup.trans hi'

end BinaryHeap
