import Mathlib.Algebra.Order.Ring.Int
import Mathlib.Data.List.Basic

/-!
# Bit fields

A field of `w` bits from bit `off` on of a word is read with `extractLsb'` and written with
`setField`.  A word that is made of fields compares as the list of their values does, from the most
significant one down (`mixed_lt_iff`).
-/

namespace BitVec

variable {n w : Nat}

/-- Store the bits of `v` from bit `off` on. -/
def setField (x : BitVec n) (off : Nat) (v : BitVec w) : BitVec n :=
  (x &&& ~~~((allOnes w).setWidth n <<< off)) ||| (v.setWidth n <<< off)

theorem getLsbD_setField (x : BitVec n) (off : Nat) (v : BitVec w) (i : Nat) :
    (x.setField off v).getLsbD i =
      (decide (i < n) && if off ≤ i ∧ i < off + w then v.getLsbD (i - off) else x.getLsbD i) := by
  simp only [setField, getLsbD_or, getLsbD_and, getLsbD_not, getLsbD_shiftLeft, getLsbD_setWidth,
    getLsbD_allOnes]
  by_cases hn : i < n
  · by_cases hoff : off ≤ i
    · by_cases hw : i < off + w
      · simp [hn, hoff, hw, Nat.not_lt.mpr hoff, show i - off < n by omega,
          show i - off < w by omega]
      · simp [hn, hw, show ¬ i - off < w by omega, getLsbD_of_ge v (i - off) (by omega)]
    · simp [hn, hoff, show i < off by omega]
  · simp [hn]

theorem extractLsb'_setField (x : BitVec n) {off : Nat} (v : BitVec w) (h : off + w ≤ n) :
    (x.setField off v).extractLsb' off w = v := by
  ext i hi
  rw [getElem_extractLsb', getLsbD_setField, if_pos ⟨by omega, by omega⟩, Nat.add_sub_cancel_left,
    getLsbD_eq_getElem hi]
  simp
  omega

theorem extractLsb'_setField_of_disjoint (x : BitVec n) {off s l : Nat} (v : BitVec w)
    (h : s + l ≤ off ∨ off + w ≤ s) :
    (x.setField off v).extractLsb' s l = x.extractLsb' s l := by
  ext i hi
  rw [getElem_extractLsb', getElem_extractLsb', getLsbD_setField, if_neg (by omega)]
  by_cases hn : s + i < n
  · simp [hn]
  · simp [hn, getLsbD_of_ge x (s + i) (by omega)]

theorem toNat_mod_add (x : BitVec n) (s w : Nat) :
    x.toNat % 2 ^ (s + w) = (x.extractLsb' s w).toNat * 2 ^ s + x.toNat % 2 ^ s := by
  rw [Nat.pow_add, Nat.mod_mul, extractLsb'_toNat, Nat.shiftRight_eq_div_pow, Nat.mul_comm,
    Nat.add_comm]

/-- A word is the field at its upper end, with its sign, and the bits below. -/
theorem toInt_eq_field (x : BitVec n) (s w : Nat) (h : s + (w + 1) = n) :
    x.toInt = (x.extractLsb' s (w + 1)).toInt * 2 ^ s + (x.toNat % 2 ^ s : Nat) := by
  have hsum := x.toNat_mod_add s (w + 1)
  rw [h, Nat.mod_eq_of_lt x.isLt] at hsum
  have hrest : x.toNat % 2 ^ s < 2 ^ s := Nat.mod_lt _ (Nat.two_pow_pos s)
  have htop : 2 ^ n = 2 ^ (w + 1) * 2 ^ s := by rw [← h, Nat.add_comm, Nat.pow_add]
  generalize hfield : (x.extractLsb' s (w + 1)).toNat = field at hsum
  generalize x.toNat % 2 ^ s = rest at hsum hrest
  have hsign : 2 * x.toNat < 2 ^ n ↔ 2 * field < 2 ^ (w + 1) := by
    rw [hsum, htop, Nat.pow_succ]
    constructor
    · intro hlt
      by_contra hge
      have := Nat.mul_le_mul_right (2 ^ s) (show 2 ^ w ≤ field by omega)
      rw [Nat.mul_right_comm] at hlt
      omega
    · intro hlt
      have := Nat.mul_le_mul_right (2 ^ s) (show field + 1 ≤ 2 ^ w by omega)
      rw [Nat.add_mul, Nat.one_mul] at this
      rw [Nat.mul_right_comm]
      omega
  rw [toInt_eq_toNat_cond, toInt_eq_toNat_cond, hfield]
  simp only [hsign]
  split
  · rw [hsum]
    norm_cast
  · rw [hsum, htop, Int.sub_mul]
    push_cast
    omega

end BitVec

/-! ## Mixed radix -/

/-- The number that has the digits of the list, each with its radix, behind the leading one. -/
def mixed : Int → List (Int × Int) → Int
  | a, [] => a
  | a, (r, d) :: l => mixed (a * r + d) l

theorem Int.mul_add_lt_iff {r a b d e : Int} (hd : 0 ≤ d) (hdr : d < r) (he : 0 ≤ e) (her : e < r) :
    a * r + d < b * r + e ↔ a < b ∨ a = b ∧ d < e := by
  rcases Int.lt_trichotomy a b with hab | rfl | hab
  · have : (a + 1) * r ≤ b * r := Int.mul_le_mul_of_nonneg_right hab (by omega)
    rw [Int.add_mul, Int.one_mul] at this
    omega
  · omega
  · have : (b + 1) * r ≤ a * r := Int.mul_le_mul_of_nonneg_right hab (by omega)
    rw [Int.add_mul, Int.one_mul] at this
    omega

theorem Int.mul_add_inj_iff {r a b d e : Int} (hd : 0 ≤ d) (hdr : d < r) (he : 0 ≤ e)
    (her : e < r) : a * r + d = b * r + e ↔ a = b ∧ d = e := by
  have hlt := Int.mul_add_lt_iff (a := a) (b := b) hd hdr he her
  have hgt := Int.mul_add_lt_iff (a := b) (b := a) he her hd hdr
  omega

theorem mixed_lt_iff {rs ds es : List Int} (a b : Int)
    (hds : List.Forall₂ (fun r d => 0 ≤ d ∧ d < r) rs ds)
    (hes : List.Forall₂ (fun r e => 0 ≤ e ∧ e < r) rs es) :
    mixed a (rs.zip ds) < mixed b (rs.zip es) ↔ a :: ds < b :: es := by
  rw [List.cons_lt_cons_iff]
  induction hds generalizing a b es with
  | nil =>
    cases hes
    simp [mixed]
  | cons hd _ ih =>
    obtain _ | ⟨he, hes⟩ := hes
    rw [List.zip_cons_cons, List.zip_cons_cons, mixed, mixed, ih _ _ hes,
      Int.mul_add_lt_iff hd.1 hd.2 he.1 he.2, Int.mul_add_inj_iff hd.1 hd.2 he.1 he.2,
      List.cons_lt_cons_iff]
    tauto
