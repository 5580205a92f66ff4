import DBStream.ForStd.ThreeWay
import DBStream.Native.IndexKey
import Mathlib.Data.List.Lex

/-!
# The order of byte strings

`binaryType::compare` looks at the common length only, and decides by the lengths what the common
part leaves open.  The answer is the lexicographic order of the bytes, whatever `memcmp` answers
besides the sign.
-/

namespace DBStream.Native

open ThreeWay

/-! ## The common part of two lists -/

section Take

variable {α : Type} [LinearOrder α]

theorem lt_iff_take_lt {l l' : List α} (h : l.length < l'.length) :
    l' < l ↔ l'.take l.length < l := by
  induction l generalizing l' with
  | nil => simp
  | cons x l ih =>
    cases l' with
    | nil => simp at h
    | cons y l' =>
      have hlen : l.length < l'.length := by simpa using h
      simp [List.cons_lt_cons_iff, ih hlen]

end Take

/-- The bytes of a string, as numbers. -/
def byteValues (d : List UInt8) : List Nat := d.map UInt8.toNat

@[simp] theorem length_byteValues (d : List UInt8) : (byteValues d).length = d.length := by
  simp [byteValues]

theorem byteValues_take (d : List UInt8) (n : Nat) :
    byteValues (d.take n) = (byteValues d).take n := by simp [byteValues]

theorem byteValues_inj {a b : List UInt8} (h : byteValues a = byteValues b) : a = b :=
  List.map_injective_iff.mpr (fun _ _ hxy => UInt8.toNat_inj.mp hxy) h

namespace BinaryType

variable {memcmp : List UInt8 → List UInt8 → Nat → Int}

/-- `memcmp` of the C standard: the sign of the answer is that of the first two bytes that differ,
taken as unsigned numbers. -/
def Standard (memcmp : List UInt8 → List UInt8 → Nat → Int) : Prop :=
  ∀ a b n, n ≤ a.length → n ≤ b.length →
    (memcmp a b n).sign = order (byteValues (a.take n)) (byteValues (b.take n))

theorem byteValues_ne {a b : List UInt8} (h : a.length ≠ b.length) :
    byteValues a ≠ byteValues b := fun heq => h (by simpa using congrArg List.length heq)

theorem sign_compare (hmem : Standard memcmp) (a b : BinaryType) :
    (a.compare memcmp b).sign = order (byteValues a.data) (byteValues b.data) := by
  unfold compare size
  split
  · -- two strings of the same length
    next heq =>
    rw [hmem _ _ _ (Nat.le_refl _) (Nat.le_of_eq heq), List.take_length, heq, List.take_length]
  · next hne =>
    split
    · -- the first one is shorter: it is greater only by an early difference
      next hlt =>
      have hsign := hmem a.data b.data a.data.length (Nat.le_refl _) (Nat.le_of_lt hlt)
      rw [List.take_length, byteValues_take] at hsign
      have hlen : (byteValues a.data).length < (byteValues b.data).length := by simpa using hlt
      have htake := lt_iff_take_lt hlen
      rw [length_byteValues] at htake
      exact sign_ite_eq_order (by rw [pos_iff_of_sign hsign, htake]) (byteValues_ne hne)
    · -- the first one is longer: it is smaller only by an early difference
      have hlt : b.data.length < a.data.length := by omega
      have hsign := hmem a.data b.data b.data.length (Nat.le_of_lt hlt) (Nat.le_refl _)
      rw [List.take_length, byteValues_take] at hsign
      have hlen : (byteValues b.data).length < (byteValues a.data).length := by simpa using hlt
      have htake := lt_iff_take_lt hlen
      rw [length_byteValues] at htake
      have hne' := byteValues_ne hne
      apply sign_ite_eq_order _ hne'
      rw [← not_lt, neg_iff_of_sign hsign, ← htake, not_lt]
      exact ⟨fun hle => lt_of_le_of_ne hle (Ne.symm hne'), le_of_lt⟩

private theorem ext_data {a b : BinaryType} (h : a.data = b.data) : a = b := by
  cases a
  cases b
  simp_all

/-- `compare` is the lexicographic order of the unsigned bytes, a total order, and 0 for equal
strings only. -/
theorem compare_total (hmem : Standard memcmp) :
    (∀ a b : BinaryType,
      (a.compare memcmp b).sign = order (byteValues a.data) (byteValues b.data)) ∧
      IsTotal (compare memcmp) (fun _ => True) ∧
      ∀ a b : BinaryType, a.compare memcmp b = 0 ↔ a = b := by
  have htotal : IsTotal (compare memcmp) (fun _ => True) := by
    have hsign : ∀ a b : BinaryType, True → True →
        (a.compare memcmp b).sign = order (byteValues a.data) (byteValues b.data) :=
      fun a b _ _ => sign_compare hmem a b
    exact IsTotal.of_rank hsign fun a b _ _ h => ext_data (byteValues_inj h)
  exact ⟨sign_compare hmem, htotal, fun a b => htotal.eq_zero_iff trivial trivial⟩

/-- A `memcmp` that answers -1, 0 or 1. -/
def bytewise (a b : List UInt8) (n : Nat) : Int := Native.memcmp (a.take n) (b.take n)

theorem sign_memcmp {a b : List UInt8} (h : a.length = b.length) :
    (Native.memcmp a b).sign = order (byteValues a) (byteValues b) := by
  induction a generalizing b with
  | nil =>
    cases b with
    | nil => simp [Native.memcmp, byteValues]
    | cons y b => simp at h
  | cons x a ih =>
    cases b with
    | nil => simp at h
    | cons y b =>
      have hrest := ih (b := b) (by simpa using h)
      apply sign_eq_order
      all_goals
        simp only [Native.memcmp, byteValues, List.map_cons, List.cons_lt_cons_iff,
          ← UInt8.lt_iff_toNat_lt]
        rcases lt_trichotomy x.toNat y.toNat with hlt | heq | hgt
      · simp [UInt8.lt_iff_toNat_lt, hlt]
      · have hxy := UInt8.toNat_inj.mp heq
        simp [hxy, neg_iff_of_sign hrest, byteValues]
      · have hle : ¬x.toNat < y.toNat := by omega
        have hne : x.toNat ≠ y.toNat := by omega
        simp [UInt8.lt_iff_toNat_lt, hgt, hle, hne]
      · have hle : ¬y.toNat < x.toNat := by omega
        have hne : y.toNat ≠ x.toNat := by omega
        simp [UInt8.lt_iff_toNat_lt, hlt, hle, hne]
      · have hxy := UInt8.toNat_inj.mp heq
        simp [hxy, pos_iff_of_sign hrest, byteValues]
      · have hle : ¬x.toNat < y.toNat := by omega
        simp [UInt8.lt_iff_toNat_lt, hgt, hle]

private theorem standard_bytewise : Standard bytewise := by
  intro a b n ha hb
  exact sign_memcmp (by simp; omega)

theorem compare_total_bytewise :
    (∀ a b : BinaryType,
      (a.compare bytewise b).sign = order (byteValues a.data) (byteValues b.data)) ∧
      IsTotal (compare bytewise) (fun _ => True) ∧
      ∀ a b : BinaryType, a.compare bytewise b = 0 ↔ a = b :=
  compare_total standard_bytewise

end BinaryType

end DBStream.Native
