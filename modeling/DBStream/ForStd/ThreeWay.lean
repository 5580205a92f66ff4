import Mathlib.Algebra.Order.Ring.Int

/-!
# Three-way comparison

A comparison in the manner of C answers with a number of which only the sign counts.  `order` is the
answer for the elements of a linear order, and `IsTotal` says that a comparison orders the elements
of a set totally.  A comparison that answers as the ranks of its arguments do is total where the
ranks tell the elements apart.
-/

namespace ThreeWay

variable {α β : Type}

/-- `-1`, `0` or `1`, as the first element is smaller, equal or greater. -/
def order [LinearOrder β] (a b : β) : Int := if a < b then -1 else if b < a then 1 else 0

section Order

variable [LinearOrder β] {a b : β}

theorem order_neg_iff : order a b < 0 ↔ a < b := by
  unfold order
  split
  · simp [*]
  · split <;> simp [*]

theorem order_pos_iff : 0 < order a b ↔ b < a := by
  unfold order
  split
  · next hlt => simp [not_lt_of_gt hlt]
  · split <;> simp [*]

private theorem order_eq_zero_iff : order a b = 0 ↔ a = b := by
  have hneg := order_neg_iff (a := a) (b := b)
  have hpos := order_pos_iff (a := a) (b := b)
  constructor
  · intro h
    apply le_antisymm
    · exact not_lt.mp (mt hpos.mpr (by omega))
    · exact not_lt.mp (mt hneg.mpr (by omega))
  · intro h
    simp [order, h]

theorem order_swap : order b a = -order a b := by
  unfold order
  rcases lt_trichotomy a b with hlt | heq | hgt
  · simp [hlt, not_lt_of_gt hlt]
  · simp [heq]
  · simp [hgt, not_lt_of_gt hgt]

@[simp] theorem order_self : order a a = 0 := by simp [order]

@[simp] theorem sign_order : (order a b).sign = order a b := by
  unfold order
  split
  · rfl
  · split <;> rfl

end Order

theorem sign_eq_order [LinearOrder β] {n : Int} {a b : β} (hneg : n < 0 ↔ a < b)
    (hpos : 0 < n ↔ b < a) : n.sign = order a b := by
  unfold order
  split
  · next hlt => exact Int.sign_eq_neg_one_of_neg (hneg.mpr hlt)
  · next hge =>
    split
    · next hgt => exact Int.sign_eq_one_of_pos (hpos.mpr hgt)
    · next hle =>
      have h₁ := mt hneg.mp hge
      have h₂ := mt hpos.mp hle
      rw [show n = 0 by omega, Int.sign_zero]

theorem order_congr [LinearOrder α] [LinearOrder β] {x y : α} {a b : β} (hlt : x < y ↔ a < b)
    (hgt : y < x ↔ b < a) : order x y = order a b := by
  rw [← sign_order]
  exact sign_eq_order (order_neg_iff.trans hlt) (order_pos_iff.trans hgt)

theorem sign_ite_eq_order [LinearOrder β] {a b : β} {p : Prop} [Decidable p] (hp : p ↔ b < a)
    (hne : a ≠ b) : (if p then 1 else -1 : Int).sign = order a b := by
  unfold order
  rcases lt_or_gt_of_ne hne with hlt | hgt
  · simp [hlt, hp, not_lt_of_gt hlt]
  · simp [hgt, hp, not_lt_of_gt hgt]

theorem neg_iff_of_sign [LinearOrder β] {n : Int} {a b : β} (h : n.sign = order a b) :
    n < 0 ↔ a < b := by
  rw [← Int.sign_neg_iff, h, order_neg_iff]

theorem pos_iff_of_sign [LinearOrder β] {n : Int} {a b : β} (h : n.sign = order a b) :
    0 < n ↔ b < a := by
  rw [← Int.sign_pos_iff, h, order_pos_iff]

theorem eq_zero_iff_of_sign [LinearOrder β] {n : Int} {a b : β} (h : n.sign = order a b) :
    n = 0 ↔ a = b := by
  rw [← Int.sign_eq_zero_iff_zero, h, order_eq_zero_iff]

/-- The comparison is a total order of the elements of `S`. -/
structure IsTotal (cmp : α → α → Int) (S : α → Prop) : Prop where
  antisymm : ∀ a b, S a → S b → (cmp b a).sign = -(cmp a b).sign
  trans : ∀ a b c, S a → S b → S c → cmp a b ≤ 0 → cmp b c ≤ 0 → cmp a c ≤ 0
  eq_of_zero : ∀ a b, S a → S b → cmp a b = 0 → a = b

namespace IsTotal

variable {cmp : α → α → Int} {S : α → Prop} {a b c : α}

theorem pos_iff (h : IsTotal cmp S) (ha : S a) (hb : S b) : 0 < cmp b a ↔ cmp a b < 0 := by
  rw [← Int.sign_pos_iff, h.antisymm a b ha hb, ← Int.sign_neg_iff]
  omega

theorem eq_zero_iff (h : IsTotal cmp S) (ha : S a) (hb : S b) : cmp a b = 0 ↔ a = b := by
  constructor
  · exact h.eq_of_zero a b ha hb
  · intro heq
    have hself := h.antisymm a a ha ha
    rw [← heq, ← Int.sign_eq_zero_iff_zero]
    omega

theorem lt_trans (h : IsTotal cmp S) (ha : S a) (hb : S b) (hc : S c) (hab : cmp a b < 0)
    (hbc : cmp b c ≤ 0) : cmp a c < 0 := by
  have hle := h.trans a b c ha hb hc (Int.le_of_lt hab) hbc
  by_contra hge
  -- otherwise `c` and `a` are the same element, and `b` is not smaller than `a`
  have hac := h.eq_of_zero a c ha hc (by omega)
  have hpos := (h.pos_iff ha hb).mpr hab
  rw [← hac] at hbc
  omega

theorem of_rank [LinearOrder β] {rank : α → β}
    (hsign : ∀ a b, S a → S b → (cmp a b).sign = order (rank a) (rank b))
    (hinj : ∀ a b, S a → S b → rank a = rank b → a = b) : IsTotal cmp S where
  antisymm a b ha hb := by rw [hsign b a hb ha, hsign a b ha hb, order_swap]
  trans a b c ha hb hc hab hbc := by
    have h₁ := mt (pos_iff_of_sign (hsign a b ha hb)).mpr (by omega)
    have h₂ := mt (pos_iff_of_sign (hsign b c hb hc)).mpr (by omega)
    have h₃ := mt (pos_iff_of_sign (hsign a c ha hc)).mp
      (not_lt.mpr (le_trans (not_lt.mp h₁) (not_lt.mp h₂)))
    omega
  eq_of_zero a b ha hb h := hinj a b ha hb ((eq_zero_iff_of_sign (hsign a b ha hb)).mp h)

end IsTotal

end ThreeWay
