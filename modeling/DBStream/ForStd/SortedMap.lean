import Mathlib.Algebra.BigOperators.Group.List.Basic
import Mathlib.Algebra.GroupWithZero.Nat
import Mathlib.Order.Lattice

/-!
# Ordered maps as sorted association lists

`SortedMap κ V` is a finite map whose entries are kept in increasing key order,
the way a balanced search tree enumerates them.  The order is a field of the
structure, so every map that can be built is sorted and has one entry per key.

`insert` keeps an existing entry (it never overwrites), `modify` changes the
value stored under a key.  Besides the lookup laws there are the two laws that
say how a sum over all entries changes, `sum_insert` and `sum_modify`.
-/

namespace SortedEntries

variable {κ V : Type} [LinearOrder κ]

/-- Lookup in an association list. -/
def find (k : κ) : List (κ × V) → Option V
  | [] => none
  | (k', v) :: l => if k = k' then some v else find k l

/-- Insertion in key order; an entry already stored under `k` stays. -/
def insert (k : κ) (v : V) : List (κ × V) → List (κ × V)
  | [] => [(k, v)]
  | (k', v') :: l =>
    if k < k' then (k, v) :: (k', v') :: l
    else if k = k' then (k', v') :: l
    else (k', v') :: insert k v l

/-- Apply `f` to the value stored under `k`. -/
def modify (k : κ) (f : V → V) : List (κ × V) → List (κ × V)
  | [] => []
  | (k', v) :: l => if k = k' then (k', f v) :: l else (k', v) :: modify k f l

/-- Keys increase strictly. -/
def Sorted (l : List (κ × V)) : Prop := l.Pairwise (fun a b => a.1 < b.1)

variable {k : κ}

variable {l : List (κ × V)}

theorem mem_insert {v : V} {e : κ × V}
    (h : e ∈ insert k v l) : e = (k, v) ∨ e ∈ l := by
  induction l with
  | nil => exact Or.inl (by simpa [insert] using h)
  | cons x l ih =>
    simp only [insert] at h
    split at h
    · simpa using h
    · split at h
      · exact Or.inr h
      · rcases List.mem_cons.mp h with rfl | h
        · exact Or.inr (List.mem_cons_self ..)
        · exact (ih h).imp_right (List.mem_cons_of_mem _)

theorem mem_insert_of_new (v : V) (h : ∀ e ∈ l, e.1 ≠ k) : (k, v) ∈ insert k v l := by
  induction l with
  | nil => exact List.mem_singleton_self _
  | cons x l ih =>
    have hne : ¬ k = x.1 := Ne.symm (h x (List.mem_cons_self ..))
    simp only [insert, if_neg hne]
    split
    · exact List.mem_cons_self ..
    · exact List.mem_cons_of_mem _ (ih fun e he => h e (List.mem_cons_of_mem _ he))

theorem keys_modify (k : κ) (f : V → V) (l : List (κ × V)) :
    (modify k f l).map Prod.fst = l.map Prod.fst := by
  induction l with
  | nil => rfl
  | cons x l ih =>
    simp only [modify]
    split
    · rfl
    · simp [ih]

theorem Sorted.insert (h : Sorted l) (k : κ) (v : V) :
    Sorted (insert k v l) := by
  induction l with
  | nil => exact List.pairwise_singleton _ _
  | cons x l ih =>
    obtain ⟨hx, hl⟩ := List.pairwise_cons.mp h
    simp only [SortedEntries.insert]
    split
    · rename_i hk
      refine List.pairwise_cons.mpr ⟨fun e he => ?_, h⟩
      rcases List.mem_cons.mp he with rfl | he
      · exact hk
      · exact lt_trans hk (hx e he)
    · split
      · exact h
      · rename_i hlt hne
        refine List.pairwise_cons.mpr ⟨fun e he => ?_, ih hl⟩
        rcases mem_insert he with rfl | he
        · exact lt_of_le_of_ne (not_lt.mp hlt) (Ne.symm hne)
        · exact hx e he

theorem sorted_iff_keys :
    Sorted l ↔ (l.map Prod.fst).Pairwise (· < ·) := by
  rw [List.pairwise_map]
  rfl

theorem Sorted.modify (h : Sorted l) (k : κ) (f : V → V) :
    Sorted (modify k f l) := by
  rw [sorted_iff_keys, keys_modify, ← sorted_iff_keys]
  exact h

theorem find_eq_none_of_lt (h : ∀ e ∈ l, k < e.1) :
    find k l = none := by
  induction l with
  | nil => rfl
  | cons x l ih =>
    have hx := h x (List.mem_cons_self ..)
    rw [find, if_neg (ne_of_lt hx)]
    exact ih fun e he => h e (List.mem_cons_of_mem _ he)

theorem mem_iff_find (h : Sorted l) {v : V} :
    (k, v) ∈ l ↔ find k l = some v := by
  induction l with
  | nil => simp [find]
  | cons x l ih =>
    obtain ⟨k₀, v₀⟩ := x
    obtain ⟨hx, hl⟩ := List.pairwise_cons.mp h
    simp only [find, List.mem_cons]
    split
    · rename_i hk
      subst hk
      have hnone := find_eq_none_of_lt (k := k) hx
      constructor
      · rintro (he | hmem)
        · rw [(Prod.mk.inj he).2]
        · exact absurd ((ih hl).mp hmem) (by simp [hnone])
      · intro hv
        exact Or.inl (by rw [← Option.some.inj hv])
    · rename_i hk
      constructor
      · rintro (he | hmem)
        · exact absurd (Prod.mk.inj he).1 hk
        · exact (ih hl).mp hmem
      · intro hv
        exact Or.inr ((ih hl).mpr hv)

theorem find?_le_of_mem {v : V} (hl : Sorted l) (h : (k, v) ∈ l) :
    l.find? (fun p => k ≤ p.1) = some (k, v) := by
  induction l with
  | nil => cases h
  | cons x l ih =>
    obtain ⟨hx, hl⟩ := List.pairwise_cons.mp hl
    rcases List.mem_cons.mp h with rfl | h
    · rw [List.find?_cons_of_pos (by simp)]
    · have hlt : ¬ k ≤ x.1 := not_le.mpr (hx _ h)
      rw [List.find?_cons_of_neg (by simpa using hlt), ih hl h]

theorem find_insert_self {v : V} (hl : Sorted l) :
    find k (insert k v l) = some ((find k l).getD v) := by
  induction l with
  | nil => simp [insert, find]
  | cons x l ih =>
    obtain ⟨hx, hl'⟩ := List.pairwise_cons.mp hl
    simp only [insert]
    split
    · rename_i hk
      have hnone : find k (x :: l) = none := by
        refine find_eq_none_of_lt fun e he => ?_
        rcases List.mem_cons.mp he with rfl | he
        · exact hk
        · exact lt_trans hk (hx e he)
      rw [hnone]
      simp [find]
    · split
      · rename_i hk
        simp [find, hk]
      · rename_i hk
        simp only [find, if_neg hk, ih hl']

theorem find_insert_of_ne {k k' : κ} {v : V} (h : k' ≠ k) :
    find k' (insert k v l) = find k' l := by
  induction l with
  | nil => simp [insert, find, h]
  | cons x l ih =>
    simp only [insert]
    split
    · simp [find, h]
    · split
      · rfl
      · simp only [find, ih]

theorem find_modify_self {f : V → V} :
    find k (modify k f l) = (find k l).map f := by
  induction l with
  | nil => rfl
  | cons x l ih =>
    simp only [modify]
    split
    · rename_i hk
      simp [find, hk]
    · rename_i hk
      simp only [find, if_neg hk, ih]

theorem find_modify_of_ne {k k' : κ} {f : V → V} (h : k' ≠ k) :
    find k' (modify k f l) = find k' l := by
  induction l with
  | nil => rfl
  | cons x l ih =>
    simp only [modify]
    split
    · rename_i hk
      subst hk
      simp [find, h]
    · simp only [find, ih]

theorem sum_insert {v : V} (g : κ × V → Nat)
    (hl : Sorted l) (h : find k l = none) :
    ((insert k v l).map g).sum = (l.map g).sum + g (k, v) := by
  induction l with
  | nil => simp [insert]
  | cons x l ih =>
    obtain ⟨k₀, v₀⟩ := x
    obtain ⟨_, hl'⟩ := List.pairwise_cons.mp hl
    simp only [insert]
    split
    · simp only [List.map_cons, List.sum_cons]
      omega
    · split
      · rename_i hk
        simp [find, hk] at h
      · rename_i hk
        simp only [find, if_neg hk] at h
        simp only [List.map_cons, List.sum_cons, ih hl' h]
        omega

theorem sum_modify {v : V} {f : V → V} (g : κ × V → Nat)
    (h : find k l = some v) :
    ((modify k f l).map g).sum + g (k, v) = (l.map g).sum + g (k, f v) := by
  induction l with
  | nil => simp [find] at h
  | cons x l ih =>
    obtain ⟨k₀, v₀⟩ := x
    simp only [find] at h
    simp only [modify]
    split at h
    · rename_i hk
      subst hk
      cases h
      simp only [if_pos, List.map_cons, List.sum_cons]
      omega
    · rename_i hk
      have := ih h
      simp only [if_neg hk, List.map_cons, List.sum_cons]
      omega

end SortedEntries

/-- A finite map with its entries in increasing key order. -/
structure SortedMap (κ V : Type) [LinearOrder κ] where
  entries : List (κ × V)
  sorted : SortedEntries.Sorted entries

namespace SortedMap

variable {κ V : Type} [LinearOrder κ]

/-- The empty map. -/
def empty : SortedMap κ V := ⟨[], List.Pairwise.nil⟩

/-- The map with one entry. -/
def singleton (k : κ) (v : V) : SortedMap κ V := ⟨[(k, v)], List.pairwise_singleton _ _⟩

/-- The value stored under `k`. -/
def find (m : SortedMap κ V) (k : κ) : Option V := SortedEntries.find k m.entries

/-- Store `v` under `k` unless `k` has an entry. -/
def insert (m : SortedMap κ V) (k : κ) (v : V) : SortedMap κ V :=
  ⟨SortedEntries.insert k v m.entries, m.sorted.insert k v⟩

/-- Change the value stored under `k`. -/
def modify (m : SortedMap κ V) (k : κ) (f : V → V) : SortedMap κ V :=
  ⟨SortedEntries.modify k f m.entries, m.sorted.modify k f⟩

/-- Number of entries. -/
def size (m : SortedMap κ V) : Nat := m.entries.length

variable (m : SortedMap κ V) {k k' : κ} {v : V}

theorem mem_entries : (k, v) ∈ m.entries ↔ m.find k = some v :=
  SortedEntries.mem_iff_find m.sorted

@[simp] theorem find_singleton : (singleton k v).find k' = if k' = k then some v else none := rfl

theorem find_insert_self (h : m.find k = none) : (m.insert k v).find k = some v := by
  rw [find] at h
  rw [insert, find, SortedEntries.find_insert_self m.sorted, h, Option.getD_none]

theorem find_insert_of_ne (h : k' ≠ k) : (m.insert k v).find k' = m.find k' :=
  SortedEntries.find_insert_of_ne h

theorem find_modify_self (f : V → V) : (m.modify k f).find k = (m.find k).map f :=
  SortedEntries.find_modify_self

theorem find_modify_of_ne (f : V → V) (h : k' ≠ k) : (m.modify k f).find k' = m.find k' :=
  SortedEntries.find_modify_of_ne h

theorem find_insert_cases {v' : V} (hk : m.find k = none) (h : (m.insert k v).find k' = some v') :
    (k' = k ∧ v' = v) ∨ (k' ≠ k ∧ m.find k' = some v') := by
  by_cases hkk : k' = k
  · subst hkk
    rw [m.find_insert_self hk] at h
    exact Or.inl ⟨rfl, (Option.some.inj h).symm⟩
  · rw [m.find_insert_of_ne hkk] at h
    exact Or.inr ⟨hkk, h⟩

theorem find_modify_cases {v' : V} {f : V → V} (hk : m.find k = some v)
    (h : (m.modify k f).find k' = some v') :
    (k' = k ∧ v' = f v) ∨ (k' ≠ k ∧ m.find k' = some v') := by
  by_cases hkk : k' = k
  · subst hkk
    rw [m.find_modify_self, hk] at h
    exact Or.inl ⟨rfl, (Option.some.inj h).symm⟩
  · rw [m.find_modify_of_ne _ hkk] at h
    exact Or.inr ⟨hkk, h⟩

theorem find_modify_of_find {v' : V} (f : V → V) (h : m.find k' = some v') :
    ∃ v'', (m.modify k f).find k' = some v'' := by
  by_cases hkk : k' = k
  · subst hkk
    exact ⟨f v', by rw [m.find_modify_self, h, Option.map_some]⟩
  · exact ⟨v', by rw [m.find_modify_of_ne _ hkk, h]⟩

theorem sum_insert (g : κ × V → Nat) (h : m.find k = none) :
    ((m.insert k v).entries.map g).sum = (m.entries.map g).sum + g (k, v) :=
  SortedEntries.sum_insert g m.sorted h

theorem sum_modify (g : κ × V → Nat) (f : V → V) (h : m.find k = some v) :
    ((m.modify k f).entries.map g).sum + g (k, v) = (m.entries.map g).sum + g (k, f v) :=
  SortedEntries.sum_modify g h

theorem size_insert (h : m.find k = none) : (m.insert k v).size = m.size + 1 := by
  simpa [size, Function.const] using m.sum_insert (v := v) (fun _ => 1) h

theorem size_modify (f : V → V) : (m.modify k f).size = m.size := by
  have := congrArg List.length (SortedEntries.keys_modify k f m.entries)
  simpa [size, modify] using this

end SortedMap
