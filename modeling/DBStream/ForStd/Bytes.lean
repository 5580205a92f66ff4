import Mathlib.Data.List.Basic
import Mathlib.Tactic.Ring

/-!
# Byte strings: slices and little-endian words

Raw memory and files are modelled as `List UInt8`.  This file has the two
operations every binary format is read and written with:

* `List.slice l off len`, the `len` elements of `l` from position `off` on;
* `LE.bytes w n` / `LE.nat bs`, a natural as `w` little-endian bytes and back.

The slice lemmas are stated for concatenations, so that a field of a packed
structure is read back by walking over the fields in front of it.
-/

namespace List

variable {α : Type}

/-- The `len` elements of `l` starting at `off` (fewer where `l` ends earlier). -/
def slice (l : List α) (off len : Nat) : List α := (l.drop off).take len

theorem length_slice_of_le {l : List α} {off len : Nat} (h : off + len ≤ l.length) :
    (l.slice off len).length = len := by
  simp only [slice, length_take, length_drop]
  omega

theorem slice_zero_length (l : List α) : l.slice 0 l.length = l := by
  simp [slice]

theorem slice_append_left {l : List α} {off len : Nat} (r : List α)
    (h : off + len ≤ l.length) : (l ++ r).slice off len = l.slice off len := by
  simp only [slice]
  rw [drop_append_of_le_length (by omega), take_append_of_le_length (by simp; omega)]

theorem slice_append_right (l r : List α) (off len : Nat) :
    (l ++ r).slice (l.length + off) len = r.slice off len := by
  rw [slice, slice, drop_append, drop_eq_nil_of_le (by omega), Nat.add_sub_cancel_left,
    nil_append]

theorem slice_append_right_of_eq {l : List α} {n : Nat} (r : List α) (off len : Nat)
    (hn : l.length = n) : (l ++ r).slice (n + off) len = r.slice off len := by
  rw [← hn, slice_append_right]

theorem slice_append_mid {l m : List α} {off len : Nat} (r : List α)
    (hoff : l.length = off) (hlen : m.length = len) : (l ++ (m ++ r)).slice off len = m := by
  subst hoff hlen
  have h := slice_append_right l (m ++ r) 0 m.length
  rw [Nat.add_zero] at h
  rw [h, slice_append_left r (by omega), slice_zero_length]

theorem exists_append_cons_of_getElem? {l : List α} {i : Nat} {a : α} (h : l[i]? = some a) :
    ∃ l₁ l₂, l = l₁ ++ a :: l₂ ∧ l₁.length = i := by
  obtain ⟨hi, rfl⟩ := getElem?_eq_some_iff.mp h
  refine ⟨l.take i, l.drop (i + 1), ?_, by simp; omega⟩
  rw [← drop_eq_getElem_cons hi, take_append_drop]

theorem getElem?_snoc_cases {l : List α} {i : Nat} {a b : α} (h : (l ++ [a])[i]? = some b) :
    (i < l.length ∧ l[i]? = some b) ∨ (i = l.length ∧ b = a) := by
  by_cases hi : i < l.length
  · rw [getElem?_append_left hi] at h
    exact .inl ⟨hi, h⟩
  · rw [getElem?_append_right (by omega), getElem?_singleton] at h
    split at h
    · exact .inr ⟨by omega, (Option.some.inj h).symm⟩
    · cases h

end List

/-! ## Little-endian words -/

namespace LE

/-- The low `w` bytes of `n`, least significant first. -/
def bytes : Nat → Nat → List UInt8
  | 0, _ => []
  | w + 1, n => UInt8.ofNat n :: bytes w (n / 256)

/-- The number whose little-endian bytes are given. -/
def nat (bs : List UInt8) : Nat :=
  bs.foldr (fun b acc => b.toNat + 256 * acc) 0

@[simp] theorem nat_nil : nat [] = 0 := rfl

@[simp] theorem nat_cons (b : UInt8) (bs : List UInt8) :
    nat (b :: bs) = b.toNat + 256 * nat bs := rfl

@[simp] theorem length_bytes (w n : Nat) : (bytes w n).length = w := by
  induction w generalizing n with
  | zero => rfl
  | succ w ih => simp [bytes, ih]

theorem nat_bytes (w n : Nat) : nat (bytes w n) = n % 256 ^ w := by
  induction w generalizing n with
  | zero => simp [bytes, Nat.mod_one]
  | succ w ih =>
    have hb : (UInt8.ofNat n).toNat = n % 256 := by simp
    rw [bytes, nat_cons, ih, hb, Nat.pow_succ', Nat.mod_mul]

theorem nat_bytes_of_lt {w n : Nat} (h : n < 256 ^ w) : nat (bytes w n) = n := by
  rw [nat_bytes, Nat.mod_eq_of_lt h]

theorem nat_lt (bs : List UInt8) : nat bs < 256 ^ bs.length := by
  induction bs with
  | nil => simp
  | cons b bs ih =>
    have hb := b.toNat_lt
    rw [nat_cons, List.length_cons, Nat.pow_succ']
    omega

theorem bytes_nat (bs : List UInt8) : bytes bs.length (nat bs) = bs := by
  induction bs with
  | nil => rfl
  | cons b bs ih =>
    have hb := b.toNat_lt
    have hdiv : (b.toNat + 256 * nat bs) / 256 = nat bs := by omega
    have hhead : UInt8.ofNat (b.toNat + 256 * nat bs) = b := by
      apply UInt8.toNat_inj.mp
      simp only [UInt8.toNat_ofNat']
      omega
    rw [List.length_cons, bytes, nat_cons, hdiv, ih, hhead]

theorem bytes_inj {w m n : Nat} (hm : m < 256 ^ w) (hn : n < 256 ^ w)
    (h : bytes w m = bytes w n) : m = n := by
  have := congrArg nat h
  rwa [nat_bytes_of_lt hm, nat_bytes_of_lt hn] at this

end LE

/-!
## Big-endian words

The bytes of a word, the highest one first, and the bytes of its complement.
-/

namespace BE

/-- The number of the bytes. -/
def nat (bs : List UInt8) : Nat := LE.nat bs.reverse

/-- The low `w` bytes of `n`. -/
def bytes (w n : Nat) : List UInt8 := (LE.bytes w n).reverse

@[simp] theorem length_bytes (w n : Nat) : (bytes w n).length = w := by simp [bytes]

theorem nat_bytes_of_lt {w n : Nat} (h : n < 256 ^ w) : nat (bytes w n) = n := by
  rw [nat, bytes, List.reverse_reverse, LE.nat_bytes_of_lt h]

theorem bytes_succ (w n : Nat) : bytes (w + 1) n = bytes w (n / 256) ++ [UInt8.ofNat n] := by
  rw [bytes, LE.bytes, List.reverse_cons, bytes]

theorem bytes_succ_eq_cons (w n : Nat) :
    bytes (w + 1) n = UInt8.ofNat (n / 256 ^ w) :: bytes w n := by
  induction w generalizing n with
  | zero => simp [bytes, LE.bytes]
  | succ w ih =>
    rw [bytes_succ, ih, bytes_succ, Nat.div_div_eq_div_mul, ← Nat.pow_succ', List.cons_append]

theorem head?_bytes_lt {w n : Nat} (h : n < 2 ^ (8 * w - 1)) {b : UInt8}
    (hb : b ∈ (bytes w n).head?) : b.toNat < 128 := by
  cases w with
  | zero => cases hb
  | succ w =>
    rw [bytes_succ_eq_cons, List.head?_cons] at hb
    obtain rfl := Option.some.inj hb
    have hpow : 2 ^ (8 * (w + 1) - 1) = 128 * 256 ^ w := by
      rw [show 8 * (w + 1) - 1 = 7 + 8 * w by omega, Nat.pow_add, Nat.pow_mul]
    have hdiv : n / 256 ^ w < 128 := Nat.div_lt_of_lt_mul (by rwa [Nat.mul_comm, ← hpow])
    exact Nat.lt_of_le_of_lt (Nat.mod_le _ _) hdiv

theorem nat_map_not (bs : List UInt8) : nat (bs.map (~~~ ·)) + nat bs + 1 = 256 ^ bs.length := by
  rw [nat, nat, ← List.map_reverse, ← List.length_reverse]
  generalize bs.reverse = cs
  induction cs with
  | nil => rfl
  | cons b cs ih =>
    have hb := b.toNat_lt
    have hnot : (~~~b).toNat = 255 - b.toNat := by
      rw [UInt8.toNat_not]
      rfl
    rw [List.map_cons, LE.nat_cons, LE.nat_cons, hnot, List.length_cons, Nat.pow_succ, ← ih]
    omega

end BE
