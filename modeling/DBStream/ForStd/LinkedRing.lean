import Mathlib.Data.List.Nodup

/-!
# Linked rings

Cells that point at each other in a circle.  `Linked next l z` says that each cell of `l` points at
the one behind it, and the last at `z`; in a ring the last one points at the first.  A ring can be
read from its second cell on, and takes a new cell behind any of its own.
-/

variable {α : Type*}

/-- Each cell of the list points at the next one, the last at `z`. -/
def Linked (next : α → α) : List α → α → Prop
  | [], _ => True
  | [a], z => next a = z
  | a :: b :: l, z => next a = b ∧ Linked next (b :: l) z

namespace Linked

variable {next next' : α → α} {a b z : α} {l l₁ l₂ : List α}

theorem cons_iff : Linked next (a :: l) z ↔ next a = l.head?.getD z ∧ Linked next l z := by
  cases l with
  | nil => simp [Linked]
  | cons b l => simp [Linked]

theorem append_iff : Linked next (l₁ ++ a :: l₂) z ↔ Linked next l₁ a ∧ Linked next (a :: l₂) z := by
  induction l₁ with
  | nil => simp [Linked]
  | cons b l₁ ih =>
    cases l₁ with
    | nil => simp [Linked]
    | cons c l₁ =>
      simp only [List.cons_append, Linked] at ih ⊢
      rw [ih, and_assoc]

theorem congr (h : Linked next l z) (heq : ∀ a ∈ l, next' a = next a) : Linked next' l z := by
  induction l with
  | nil => trivial
  | cons a l ih =>
    rw [cons_iff] at h ⊢
    constructor
    · rw [heq a List.mem_cons_self]
      exact h.1
    · exact ih h.2 fun b hb => heq b (List.mem_cons_of_mem _ hb)

end Linked

/-- The cells of a ring from one of them on. -/
structure LinkedRing (next : α → α) (l : List α) : Prop where
  linked : ∀ a ∈ l.head?, Linked next l a
  nodup : l.Nodup

namespace LinkedRing

variable {next : α → α} {a b x : α} {l l₁ l₂ : List α}

theorem single (h : next a = a) : LinkedRing next [a] where
  linked := by simpa [Linked] using h
  nodup := List.nodup_singleton a

theorem rotate (h : LinkedRing next (a :: l)) : LinkedRing next (l ++ [a]) := by
  constructor
  · intro z hz
    obtain ⟨hnext, hrest⟩ := Linked.cons_iff.mp (h.linked a rfl)
    rw [Linked.append_iff]
    constructor
    · exact hrest
    · rw [Linked, hnext]
      cases l with
      | nil => simpa using hz
      | cons b l => simpa using hz
  · exact (List.perm_append_singleton a l).nodup_iff.mpr h.nodup

theorem next_eq (l₁ : List α) (h : LinkedRing next (l₁ ++ a :: b :: l₂)) : next a = b := by
  obtain ⟨z, hz⟩ : ∃ z, z ∈ (l₁ ++ a :: b :: l₂).head? := by cases l₁ <;> simp
  have hlinked := h.linked z hz
  rw [Linked.append_iff, Linked.cons_iff] at hlinked
  exact hlinked.2.1

theorem next_last (h : LinkedRing next (l ++ [a])) (hb : (l ++ [a]).head? = some b) : next a = b := by
  have hlinked := h.linked b hb
  rw [Linked.append_iff, Linked] at hlinked
  exact hlinked.2

variable [DecidableEq α]

/-- A new node behind a node of a ring. -/
theorem insert (h : LinkedRing next (l₁ ++ b :: l₂)) (hx : x ∉ l₁ ++ b :: l₂) :
    LinkedRing (Function.update (Function.update next x (next b)) b x) (l₁ ++ b :: x :: l₂) := by
  obtain ⟨hlinked, hnodup⟩ := h
  obtain ⟨hfront, hback, hdisjoint⟩ := List.nodup_append.mp hnodup
  obtain ⟨hb, hback⟩ := List.nodup_cons.mp hback
  have hxb : x ≠ b := by
    rintro rfl
    exact hx (by simp)
  constructor
  · intro z hz
    have hz' : z ∈ (l₁ ++ b :: l₂).head? := by
      rw [List.head?_append] at hz ⊢
      exact hz
    have hlinked := hlinked z hz'
    rw [Linked.append_iff] at hlinked ⊢
    obtain ⟨hlinked₁, hlinked₂⟩ := hlinked
    obtain ⟨hnext, hrest⟩ := Linked.cons_iff.mp hlinked₂
    constructor
    · apply hlinked₁.congr
      intro c hc
      have hcb : c ≠ b := hdisjoint c hc b List.mem_cons_self
      have hcx : c ≠ x := by
        rintro rfl
        exact hx (List.mem_append_left _ hc)
      rw [Function.update_of_ne hcb, Function.update_of_ne hcx]
    · rw [Linked.cons_iff, Linked.cons_iff]
      refine ⟨by simp, ?_, ?_⟩
      · rw [Function.update_of_ne hxb, Function.update_self, hnext]
      · apply hrest.congr
        intro c hc
        have hcb : c ≠ b := by
          rintro rfl
          exact hb hc
        have hcx : c ≠ x := by
          rintro rfl
          exact hx (by simp [hc])
        rw [Function.update_of_ne hcb, Function.update_of_ne hcx]
  · have hperm : (l₁ ++ b :: x :: l₂).Perm (x :: (l₁ ++ b :: l₂)) := by
      have h : (l₁ ++ [b] ++ x :: l₂).Perm (x :: (l₁ ++ [b] ++ l₂)) := List.perm_middle
      simpa using h
    exact hperm.nodup_iff.mpr (List.nodup_cons.mpr ⟨hx, hnodup⟩)

end LinkedRing
