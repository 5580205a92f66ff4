import Mathlib.Data.List.Nodup
import Mathlib.Data.List.Perm.Subperm

/-!
# Cells linked by pointers

A memory is a list of cells, each a value at an address.  An address without a cell has not been
given out, or has been freed.  `Chain` is the list of the addresses that are reached from a pointer
through the pointers `next` in the values; it ends at the null pointer, so it has no cycle.
-/

/-- A memory of values. -/
abbrev Cells (V : Type) := List (Nat × V)

namespace Cells

variable {V : Type}

/-- The value at an address. -/
def get (m : Cells V) (a : Nat) : Option V := (m.find? fun e => e.1 = a).map Prod.snd

/-- Take the cell of an address away. -/
def free (a : Nat) (m : Cells V) : Cells V := m.filter fun e => e.1 ≠ a

/-- Put a value at an address. -/
def put (a : Nat) (v : V) (m : Cells V) : Cells V := (a, v) :: free a m

variable {m m' : Cells V} {a b : Nat} {v : V}

theorem get_free_self : (free a m).get a = none := by
  simp [get, free]

theorem get_free_of_ne (h : b ≠ a) : (free a m).get b = m.get b := by
  induction m with
  | nil => rfl
  | cons e rest ih =>
    by_cases he : e.1 = b
    · simp [get, free, he, h]
    · by_cases ha : e.1 = a
      · simpa [get, free, he, ha, Ne.symm h] using ih
      · simpa [get, free, he, ha] using ih

theorem get_put_self : (put a v m).get a = some v := by
  simp [get, put]

theorem get_put_of_ne (h : b ≠ a) : (put a v m).get b = m.get b := by
  have hhead : (put a v m).get b = (free a m).get b := by
    simp [get, put, Ne.symm h]
  rw [hhead, get_free_of_ne h]

theorem get_put_congr (h : m'.get b = m.get b) : (put a v m').get b = (put a v m).get b := by
  by_cases hb : b = a
  · rw [hb, get_put_self, get_put_self]
  · rw [get_put_of_ne hb, get_put_of_ne hb, h]

theorem get_free_congr (h : m'.get b = m.get b) : (free a m').get b = (free a m).get b := by
  by_cases hb : b = a
  · rw [hb, get_free_self, get_free_self]
  · rw [get_free_of_ne hb, get_free_of_ne hb, h]

theorem mem_of_get (h : m.get a = some v) : (a, v) ∈ m := by
  obtain ⟨e, he, rfl⟩ := Option.map_eq_some_iff.mp h
  have hmem := List.mem_of_find?_eq_some he
  have ha : e.1 = a := by simpa using List.find?_some he
  exact ha ▸ hmem

theorem length_free_lt (h : m.get a = some v) : (free a m).length < m.length := by
  unfold free
  exact List.length_filter_lt_length_iff_exists.mpr ⟨(a, v), mem_of_get h, by simp⟩

/-- Free the cells of some addresses. -/
def freeAll (l : List Nat) (m : Cells V) : Cells V := l.foldl (fun m a => free a m) m

theorem get_freeAll (l : List Nat) (m : Cells V) (b : Nat) :
    (freeAll l m).get b = if b ∈ l then none else m.get b := by
  induction l generalizing m with
  | nil => simp [freeAll]
  | cons a l ih =>
    have hstep : freeAll (a :: l) m = freeAll l (free a m) := rfl
    rw [hstep, ih]
    by_cases hb : b = a
    · subst hb
      simp [get_free_self]
    · simp [hb, get_free_of_ne hb]

/-! ## Chains -/

variable {next : V → Option Nat}

/-- The addresses from a pointer on. -/
inductive Chain (next : V → Option Nat) (m : Cells V) : Option Nat → List Nat → Prop where
  | nil : Chain next m none []
  | cons {a v l} : m.get a = some v → Chain next m (next v) l → Chain next m (some a) (a :: l)

namespace Chain

variable {p : Option Nat} {l l' : List Nat}

theorem get_of_mem (h : Chain next m p l) (ha : a ∈ l) : ∃ v, m.get a = some v := by
  induction h with
  | nil => cases ha
  | cons hget _ ih =>
    cases ha with
    | head => exact ⟨_, hget⟩
    | tail _ ha => exact ih ha

theorem unique (h : Chain next m p l) (h' : Chain next m p l') : l = l' := by
  induction h generalizing l' with
  | nil =>
    cases h'
    rfl
  | cons hget _ ih =>
    cases h' with
    | cons hget' hrest' =>
      cases hget.symm.trans hget'
      rw [ih hrest']

theorem suffix {l₁ l₂ : List Nat} (h : Chain next m p (l₁ ++ a :: l₂)) :
    Chain next m (some a) (a :: l₂) := by
  induction l₁ generalizing p with
  | nil =>
    cases h with
    | cons hget hrest => exact .cons hget hrest
  | cons b l₁ ih =>
    cases h with
    | cons _ hrest => exact ih hrest

theorem nodup (h : Chain next m p l) : l.Nodup := by
  induction h with
  | nil => exact List.nodup_nil
  | cons hget hrest ih =>
    refine List.nodup_cons.mpr ⟨fun hmem => ?_, ih⟩
    obtain ⟨l₁, l₂, hsplit⟩ := List.append_of_mem hmem
    have hagain := (hsplit ▸ hrest).suffix
    have hlen := congrArg List.length ((Chain.cons hget hrest).unique hagain)
    have hsub := congrArg List.length hsplit
    simp only [List.length_cons, List.length_append] at hlen hsub
    omega

theorem length_le (h : Chain next m p l) : l.length ≤ m.length := by
  have hsub : l ⊆ m.map Prod.fst := by
    intro a ha
    obtain ⟨v, hv⟩ := h.get_of_mem ha
    exact List.mem_map_of_mem (mem_of_get hv)
  simpa using (h.nodup.subperm hsub).length_le

theorem congr (h : Chain next m p l) (hsame : ∀ a ∈ l, m'.get a = m.get a) : Chain next m' p l := by
  induction h with
  | nil => exact .nil
  | cons hget _ ih =>
    exact .cons ((hsame _ (by simp)).trans hget) (ih fun a ha => hsame a (by simp [ha]))

theorem redirect {l₁ l₂ l₃ : List Nat} {w : V} (h : Chain next m p (l₁ ++ a :: l₂))
    (hsame : ∀ b ∈ l₁, m'.get b = m.get b) (ha : m'.get a = some w)
    (hrest : Chain next m' (next w) l₃) : Chain next m' p (l₁ ++ a :: l₃) := by
  induction l₁ generalizing p with
  | nil =>
    cases h with
    | cons _ _ => exact .cons ha hrest
  | cons b l₁ ih =>
    cases h with
    | cons hget h =>
      exact .cons ((hsame b (by simp)).trans hget) (ih h fun c hc => hsame c (by simp [hc]))

end Chain

/-! ## Leaks -/

/-- The second memory is the first one with cells beside it that nothing in the first points at. -/
structure Leaks (next : V → Option Nat) (m m' : Cells V) : Prop where
  kept : ∀ {a v}, m.get a = some v → m'.get a = some v
  closed : ∀ {a v b}, m.get a = some v → next v = some b → m'.get b = m.get b

namespace Leaks

theorem put (h : Leaks next m m')
    (hnext : ∀ b, next v = some b → (put a v m').get b = (put a v m).get b) :
    Leaks next (put a v m) (Cells.put a v m') where
  kept {b w} hb := by
    by_cases hba : b = a
    · subst hba
      rwa [get_put_self] at hb ⊢
    · rw [get_put_of_ne hba] at hb ⊢
      exact h.kept hb
  closed {b w c} hb hc := by
    by_cases hba : b = a
    · subst hba
      rw [get_put_self] at hb
      cases hb
      exact hnext c hc
    · rw [get_put_of_ne hba] at hb
      exact get_put_congr (h.closed hb hc)

theorem free (h : Leaks next m m') : Leaks next (free a m) (Cells.free a m') where
  kept {b w} hb := by
    by_cases hba : b = a
    · rw [hba, get_free_self] at hb
      cases hb
    · rw [get_free_of_ne hba] at hb ⊢
      exact h.kept hb
  closed {b w c} hb hc := by
    by_cases hba : b = a
    · rw [hba, get_free_self] at hb
      cases hb
    · rw [get_free_of_ne hba] at hb
      exact get_free_congr (h.closed hb hc)

end Leaks

end Cells
