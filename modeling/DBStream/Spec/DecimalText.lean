import DBStream.Native.ColumnParser
import DBStream.Spec.ItoaCorrect

/-!
# The text of decimals

The binary format of a decimal, and what `parseDecimalToString` writes for it: the digits in front
of the point are right, and so are those of the full parts behind it.  The last part is cut to the
bytes that the first part in front of the point takes.
-/

namespace DBStream.Native.DATA_SOURCE

open JsonColumn

/-! ## The format -/

/-- The bytes of a part of `n` digits. -/
def partSize (n : Nat) : Nat := dig2bytes.getD n 0

/-- The last `9 * n` digits of `v`, in parts of nine. -/
def fullParts : Nat → Nat → List UInt8
  | 0, _ => []
  | n + 1, v => BE.bytes 4 (v / 10 ^ (9 * n) % 10 ^ 9) ++ fullParts n v

/-- The bytes of a negative value are inverted. -/
def invertIf (neg : Bool) (bs : List UInt8) : List UInt8 := if neg then bs.map (~~~ ·) else bs

def flipFirst : List UInt8 → List UInt8
  | [] => []
  | b :: bs => (b ^^^ 0x80) :: bs

/-- A value of `DECIMAL(prec, scale)`: the numbers in front of the point and behind it. -/
structure Decimal (prec scale : Nat) where
  neg : Bool
  int : Nat
  frac : Nat
  int_lt : int < 10 ^ (prec - scale)
  frac_lt : frac < 10 ^ scale

namespace Decimal

variable {prec scale : Nat} (v : Decimal prec scale)

def intBytes : List UInt8 :=
  BE.bytes (partSize ((prec - scale) % 9)) (v.int / 10 ^ (9 * ((prec - scale) / 9))) ++
    fullParts ((prec - scale) / 9) v.int

def fracBytes : List UInt8 :=
  fullParts (scale / 9) (v.frac / 10 ^ (scale % 9)) ++
    BE.bytes (partSize (scale % 9)) (v.frac % 10 ^ (scale % 9))

def encode : List UInt8 := flipFirst (invertIf v.neg (v.intBytes ++ v.fracBytes))

def text : List UInt8 :=
  (if v.neg then [0x2d] else []) ++ decimal v.int ++
    (if 0 < scale then 0x2e :: lastDigits scale v.frac else [])

def cutPart : Nat := v.frac % 10 ^ (scale % 9) % 256 ^ partSize ((prec - scale) % 9)

def cutText : List UInt8 :=
  (if v.neg then [0x2d] else []) ++ decimal v.int ++
    (if 0 < scale then 0x2e :: (lastDigits (9 * (scale / 9)) (v.frac / 10 ^ (scale % 9)) ++
      lastDigits (scale % 9) v.cutPart) else [])

end Decimal

/-! ## Parts -/

theorem partSize_spec : ∀ n < 10, dig2bytes[n]? = some (partSize n) ∧
    digMasks[n]? = some (BitVec.ofNat 32 (2 ^ (8 * partSize n) - 1)) ∧
    partSize n ≤ 4 ∧ (partSize n = 0 ↔ n = 0) ∧ 10 ^ n ≤ 2 ^ (8 * partSize n - 1) := by decide

theorem tableAt_dig2bytes {n : Nat} (h : n < 10) : tableAt dig2bytes n = .ok (partSize n) := by
  rw [tableAt, (partSize_spec n h).1]

theorem tableAt_digMasks {n : Nat} (h : n < 10) :
    tableAt digMasks n = .ok (BitVec.ofNat 32 (2 ^ (8 * partSize n) - 1)) := by
  rw [tableAt, (partSize_spec n h).2.1]

/-- The mask that inverts a negative value. -/
def maskOf (neg : Bool) : BitVec 32 := if neg then -1 else 0

theorem invertIf_append (neg : Bool) (l r : List UInt8) :
    invertIf neg (l ++ r) = invertIf neg l ++ invertIf neg r := by
  cases neg <;> simp [invertIf]

@[simp] theorem length_invertIf (neg : Bool) (l : List UInt8) :
    (invertIf neg l).length = l.length := by
  cases neg <;> simp [invertIf]

theorem mi_skorr_part {w g : Nat} (hw : 0 < w) (hg : g < 2 ^ (8 * w - 1)) (neg : Bool)
    (rest : List UInt8) :
    mi_skorr w (invertIf neg (BE.bytes w g) ++ rest) = .ok (if neg then -1 - (g : Int) else g) := by
  have hpow : 256 ^ w = 2 * 2 ^ (8 * w - 1) := by
    rw [← Nat.pow_succ', Nat.succ_eq_add_one, show 8 * w - 1 + 1 = 8 * w by omega, Nat.pow_mul]
  have hpow' : (2 : Int) ^ (8 * w) = 2 * 2 ^ (8 * w - 1) := by
    rw [← Int.pow_succ', show 8 * w - 1 + 1 = 8 * w by omega]
  have hlength : (invertIf neg (BE.bytes w g)).length = w := by simp
  have hread : mi_ukorr w (invertIf neg (BE.bytes w g) ++ rest)
      = .ok (BE.nat (invertIf neg (BE.bytes w g))) := by
    rw [mi_ukorr, if_pos (by simp), List.take_left' hlength]
  have hnat : BE.nat (BE.bytes w g) = g := BE.nat_bytes_of_lt (by omega)
  rw [mi_skorr, hread]
  cases neg with
  | false =>
    simp [invertIf, hnat, signed, if_pos hg]
  | true =>
    have hnot := BE.nat_map_not (BE.bytes w g)
    rw [hnat, BE.length_bytes, hpow] at hnot
    have hcast : ((2 ^ (8 * w - 1) : Nat) : Int) = 2 ^ (8 * w - 1) := by simp
    simp only [Exec.ok_bind, Exec.pure_eq, invertIf, if_true, signed]
    rw [if_neg (by omega), hpow']
    congr 1
    omega

theorem ofInt_xor_maskOf (g : Nat) (neg : Bool) :
    BitVec.ofInt 32 (if neg then -1 - (g : Int) else g) ^^^ maskOf neg = BitVec.ofNat 32 g := by
  cases neg with
  | false => simp [maskOf]
  | true =>
    have hnot : BitVec.ofInt 32 (-1 - (g : Int)) = ~~~BitVec.ofNat 32 g := by
      rw [show -1 - (g : Int) = -(g : Int) + -1 by omega, BitVec.ofInt_add, BitVec.ofInt_neg,
        BitVec.ofInt_natCast, BitVec.not_eq_neg_add, BitVec.sub_eq_add_neg]
      congr 1
    have hones : maskOf true = BitVec.allOnes 32 := by decide
    rw [if_pos rfl, hnot, hones, BitVec.xor_allOnes, BitVec.not_not]

theorem ofNat_and_mask (g w : Nat) (hw : w ≤ 4) :
    BitVec.ofNat 32 g &&& BitVec.ofNat 32 (2 ^ (8 * w) - 1) = BitVec.ofNat 32 (g % 256 ^ w) := by
  have hle : 2 ^ (8 * w) ≤ 2 ^ 32 := Nat.pow_le_pow_right (by omega) (by omega)
  have hpow : 2 ^ (8 * w) = 256 ^ w := Nat.pow_mul 2 8 w
  apply BitVec.eq_of_toNat_eq
  rw [BitVec.toNat_and, BitVec.toNat_ofNat, BitVec.toNat_ofNat, BitVec.toNat_ofNat,
    Nat.mod_eq_of_lt (show 2 ^ (8 * w) - 1 < 2 ^ 32 by omega), Nat.and_two_pow_sub_one_eq_mod,
    Nat.mod_mod_of_dvd _ (Nat.pow_dvd_pow 2 (by omega)), hpow]
  exact (Nat.mod_eq_of_lt (by omega)).symm

theorem getPartNumberFromDecimal_eq {k g : Nat} (hk : k < 10) (hpos : 0 < k) (hg : g < 10 ^ k)
    (neg : Bool) (rest : List UInt8) :
    getPartNumberFromDecimal (partSize k) (invertIf neg (BE.bytes (partSize k) g) ++ rest) =
      .ok (BitVec.ofInt 32 (if neg then -1 - (g : Int) else g)) := by
  obtain ⟨-, -, hle, hzero, hpow⟩ := partSize_spec k hk
  have hread := mi_skorr_part (w := partSize k) (by omega) (Nat.lt_of_lt_of_le hg hpow) neg rest
  generalize partSize k = w at *
  obtain rfl | rfl | rfl | rfl : w = 1 ∨ w = 2 ∨ w = 3 ∨ w = 4 := by omega
  all_goals
    simp only [getPartNumberFromDecimal, mi_sint1korr, mi_sint2korr, mi_sint3korr, mi_sint4korr,
      hread, Exec.ok_bind, Exec.pure_eq]

private theorem part_lt {k g : Nat} (hk : k < 10) (hg : g < 10 ^ k) : g < 256 ^ partSize k := by
  obtain ⟨-, -, -, -, hpow⟩ := partSize_spec k hk
  have hle : 2 ^ (8 * partSize k - 1) ≤ 2 ^ (8 * partSize k) :=
    Nat.pow_le_pow_right (by omega) (by omega)
  rw [Nat.pow_mul 2 8] at hle
  exact Nat.lt_of_lt_of_le hg (Nat.le_trans hpow hle)

/-! ## Writing -/

private theorem u32toa_sse2_b_eq {value : Nat} (h : value < 2 ^ 32) (dest : Nat) (m : RawMemory) :
    ∃ tail, u32toa_sse2_b value dest m = putBefore (decimal value) tail dest m := by
  unfold u32toa_sse2_b
  split
  · exact ⟨[0], by rw [← digits_of_lt_10000 ‹_›]⟩
  split
  · exact ⟨[0], by rw [← digits_of_lt_100000000 (by omega) ‹_›]⟩
  · exact ⟨[], by rw [← digits_of_ge (by omega) h]⟩

theorem toInt_ofNat {g : Nat} (h : g < 10 ^ 9) : (BitVec.ofNat 32 g).toInt = g := by
  rw [BitVec.toInt_ofNat', Int.bmod_eq_of_le (by omega) (by omega)]

theorem ofNat_ne_zero {g : Nat} (h : g < 10 ^ 9) : BitVec.ofNat 32 g ≠ 0 ↔ g ≠ 0 := by
  rw [Ne, ← BitVec.toNat_inj, BitVec.toNat_ofNat, Nat.mod_eq_of_lt (by omega)]
  rfl

/-- `u` is at `to'`, `pos` is behind it and `data` is at `rest`. -/
structure Printed (to' : Nat) (u rest : List UInt8) (isZero : Bool) (s : DecimalText) : Prop where
  pos : s.pos = to' + u.length
  holds : Holds to' u s.mem
  data : s.data = rest
  isZero : s.isZero = isZero

theorem holds_padded {base w : Nat} {u t : List UInt8} {m : RawMemory} (h : Holds base u m)
    (hw : t.length ≤ w) (tail : List UInt8) :
    Holds base (u ++ (List.replicate (w - t.length) 0x30 ++ t))
      ((m.write (base + u.length + w - t.length) (t ++ tail)).write (base + u.length)
        (List.replicate (w - t.length) 0x30)) := by
  have hfront : Holds base u (m.write (base + u.length + w - t.length) (t ++ tail)) :=
    h.congr fun a ha => RawMemory.write_of_lt (by omega)
  have hzeros := hfront.write (List.replicate (w - t.length) 0x30)
  have hdigits : RawMemory.read
      ((m.write (base + u.length + w - t.length) (t ++ tail)).write (base + u.length)
        (List.replicate (w - t.length) 0x30)) (base + u.length + w - t.length) t.length = t := by
    rw [RawMemory.read_write_of_disjoint (.inr (by rw [List.length_replicate]; omega)),
      ← RawMemory.write_append]
    rw [RawMemory.read_write_of_disjoint (.inl (Nat.le_refl _)), RawMemory.read_write_self]
  have hall := hzeros.append_read t.length
  rw [List.length_append, List.length_replicate,
    show base + (u.length + (w - t.length)) = base + u.length + w - t.length by omega, hdigits,
    List.append_assoc] at hall
  exact hall

variable {to' : Nat} {u rest : List UInt8} {z : Bool} {s : DecimalText}

theorem Printed.put (h : Printed to' u rest z s) (c : UInt8) :
    Printed to' (u ++ [c]) rest z (s.put c) where
  pos := by rw [DecimalText.put, h.pos, List.length_append, List.length_singleton, Nat.add_assoc]
  holds := by
    rw [DecimalText.put, h.pos]
    exact h.holds.write [c]
  data := h.data
  isZero := h.isZero

theorem Printed.putNumber (h : Printed to' u rest z s) {g : Nat} (hg : g < 10 ^ 9) :
    Printed to' (u ++ decimal g) rest false (s.putNumber (BitVec.ofNat 32 g)) := by
  obtain ⟨hlength, hholds⟩ := i32toa_sse2_appendsText
    (show -2 ^ 31 ≤ (g : Int) by omega) (show (g : Int) < 2 ^ 31 by omega) h.holds
  rw [← h.pos] at hlength hholds
  have htext : signedDecimal (g : Int) = decimal g := by
    rw [signedDecimal, if_neg (by omega), Int.natAbs_natCast]
  rw [htext] at hlength hholds
  simp only [DecimalText.putNumber, toInt_ofNat hg]
  exact {
    pos := by
      simp only [hlength, Int.toNat_natCast, Nat.add_sub_cancel]
      rw [h.pos, List.length_append, Nat.add_assoc]
    holds := hholds.shorten (List.prefix_append _ _)
    data := h.data
    isZero := rfl }

theorem Printed.putPadded (h : Printed to' u rest z s) {w g : Nat} (hpos : 0 < w) (hw : w ≤ 9)
    (hg : g < 10 ^ w) :
    ∃ s', s.putPadded (BitVec.ofNat 32 g) w = .ok s' ∧
      Printed to' (u ++ lastDigits w g) rest z s' := by
  have hg9 : g < 10 ^ 9 := Nat.lt_of_lt_of_le hg (Nat.pow_le_pow_right (by omega) hw)
  obtain ⟨hlength, heq⟩ := lastDigits_eq_decimal hpos hg
  have hzeroBuffer {k : Nat} (hk : k ≤ 9) : zeroBuffer.take k = List.replicate k 0x30 := by
    rw [zeroBuffer, List.take_replicate, Nat.min_eq_left (by omega)]
  unfold DecimalText.putPadded
  split
  · obtain ⟨tail, hput⟩ := u32toa_sse2_b_eq (show g < 2 ^ 32 by omega) (s.pos + w)
      s.mem
    have hb : i32toa_sse2b (BitVec.ofNat 32 g).toInt (s.pos + w) s.mem =
        putBefore (decimal g) tail (s.pos + w) s.mem := by
      rw [toInt_ofNat hg9, i32toa_sse2b, if_neg (by omega), Int.natAbs_natCast, hput]
    have hholds := holds_padded h.holds hlength tail
    rw [← heq] at hholds
    simp only [hb, putBefore, Nat.add_sub_cancel]
    rw [if_neg (by omega)]
    refine ⟨_, rfl, ?_, ?_, h.data, h.isZero⟩
    · simp only [h.pos, List.length_append, length_lastDigits]
      omega
    · simp only [DecimalText.zeros, hzeroBuffer (show w - (decimal g).length ≤ 9 by omega), h.pos]
      exact hholds
  next hzero =>
    obtain rfl : g = 0 := by
      by_contra hne
      exact hzero ((ofNat_ne_zero hg9).mpr hne)
    have hzeros : lastDigits w 0 = List.replicate w 0x30 := by
      rw [heq, show decimal 0 = List.replicate 1 0x30 from rfl, List.length_replicate,
        List.replicate_append_replicate, Nat.sub_add_cancel hpos]
    refine ⟨_, rfl, ?_, ?_, h.data, h.isZero⟩
    · simp only [h.pos, List.length_append, length_lastDigits]
      omega
    · simp only [DecimalText.zeros, hzeroBuffer hw, h.pos, hzeros]
      exact h.holds.write _

theorem advance_part (neg : Bool) (w g : Nat) (rest : List UInt8) :
    advance w (invertIf neg (BE.bytes w g) ++ rest) = .ok rest := by
  rw [advance, if_pos (by simp), List.drop_left' (by simp)]

/-! ## In front of the point -/

/-- The text of the parts so far: there is none for zeros. -/
def intText (v : Nat) : List UInt8 := if v = 0 then [] else decimal v

private theorem intText_part {v g : Nat} (hg : g < 10 ^ 9) :
    intText (v * 10 ^ 9 + g) =
      if v = 0 then intText g else intText v ++ lastDigits 9 g := by
  by_cases hv : v = 0
  · rw [if_pos hv, hv, Nat.zero_mul, Nat.zero_add]
  · have hle : 10 ^ 9 ≤ v * 10 ^ 9 + g := by omega
    have hmod : (v * 10 ^ 9 + g) % 10 ^ 9 = g := by omega
    rw [if_neg hv, intText, intText, if_neg (by omega), if_neg hv, decimal_split hle,
      ← lastDigits_mod, hmod, show (v * 10 ^ 9 + g) / 10 ^ 9 = v by omega]

theorem Printed.intFirstPart {neg : Bool} {k v : Nat} (hk : k < 10) (hv : v < 10 ^ k)
    (h : Printed to' u (invertIf neg (BE.bytes (partSize k) v) ++ rest) true s) :
    ∃ s', s.intFirstPart (maskOf neg) k (partSize k) = .ok s' ∧
      Printed to' (u ++ intText v) rest (decide (v = 0)) s' := by
  obtain ⟨-, -, hle, hzero, -⟩ := partSize_spec k hk
  have hadvance := advance_part neg (partSize k) v rest
  have hnone : u ++ intText 0 = u := List.append_nil u
  unfold DecimalText.intFirstPart
  split
  next hpos =>
    have hmod : v % 256 ^ partSize k = v := Nat.mod_eq_of_lt (part_lt hk hv)
    have hv9 : v < 10 ^ 9 := Nat.lt_of_lt_of_le hv (Nat.pow_le_pow_right (by omega) (by omega))
    simp only [h.data, getPartNumberFromDecimal_eq hk (by omega) hv, tableAt_digMasks hk,
      Exec.ok_bind, ofInt_xor_maskOf, ofNat_and_mask v _ hle, hmod, ofNat_ne_zero hv9]
    by_cases hv0 : v = 0
    · simp only [hv0, ne_eq, not_true_eq_false, if_false, h.data] at hadvance ⊢
      rw [hadvance, hnone]
      exact ⟨_, rfl, h.pos, h.holds, rfl, h.isZero⟩
    · have hput := h.putNumber hv9
      simp only [ne_eq, hv0, not_false_eq_true, if_true, hput.data, hadvance, intText, if_false,
        decide_false]
      exact ⟨_, rfl, hput.pos, hput.holds, rfl, hput.isZero⟩
  next hpos =>
    -- no digits
    have hk0 : k = 0 := hzero.mp (by omega)
    subst hk0
    obtain rfl : v = 0 := by omega
    have hdata : s.data = rest := by
      rw [h.data]
      cases neg <;> rfl
    rw [hnone]
    exact ⟨s, rfl, h.pos, h.holds, hdata, h.isZero⟩

theorem putFullPart_eq {num : BitVec 32} {i size : Nat} (hz : s.isZero = false)
    (hi : 0 < i ∨ 0 < size) : s.putFullPart num size i = s.putPadded num 9 := by
  have hnil (mem : RawMemory) : { s with mem := mem }.zeros (9 - 9) = mem := RawMemory.write_nil mem _
  simp only [DecimalText.putFullPart, DecimalText.putPadded, hz, hi, and_true, Bool.false_eq_true,
    if_false] at hnil ⊢
  split
  · by_cases hlen : (i32toa_sse2b num.toInt (s.pos + 9) s.mem).1 - 1 = 9
    · rw [if_neg (not_not.mpr hlen), hlen, if_neg (Nat.lt_irrefl 9), hnil]
    · rw [if_pos hlen]
  · rfl

theorem Printed.putFullPart {v g i size : Nat} (hg : g < 10 ^ 9) (hi : v ≠ 0 → 0 < i ∨ 0 < size)
    (h : Printed to' (u ++ intText v) rest (decide (v = 0)) s) :
    ∃ s', s.putFullPart (BitVec.ofNat 32 g) size i = .ok s' ∧
      Printed to' (u ++ intText (v * 10 ^ 9 + g)) rest (decide (v * 10 ^ 9 + g = 0)) s' := by
  rw [intText_part hg]
  by_cases hv : v = 0
  · obtain rfl := hv
    have hz : s.isZero = true := h.isZero
    rw [if_pos rfl, DecimalText.putFullPart, if_pos hz, if_pos hz]
    by_cases hg0 : g = 0
    · obtain rfl := hg0
      exact ⟨s, rfl, h⟩
    · have hput := h.putNumber hg
      rw [if_pos ((ofNat_ne_zero hg).mpr hg0)]
      refine ⟨_, rfl, hput.pos.trans ?_, ?_, hput.data, hput.isZero.trans ?_⟩
      · simp [intText, hg0]
      · simpa [intText, hg0] using hput.holds
      · simp [hg0]
  · obtain ⟨s', hs', hprinted⟩ := h.putPadded (w := 9) (by omega) (by omega) hg
    rw [if_neg hv, putFullPart_eq (by simpa [hv] using h.isZero) (hi hv), ← List.append_assoc,
      decide_eq_false (by omega)]
    rw [decide_eq_false hv] at hprinted
    exact ⟨s', hs', hprinted⟩

theorem Printed.intFullParts {neg : Bool} {int size : Nat} (n : Nat) {i v : Nat}
    (hv : v = int / 10 ^ (9 * n)) (hi : v ≠ 0 → 0 < i ∨ 0 < size)
    (h : Printed to' (u ++ intText v) (invertIf neg (fullParts n int) ++ rest) (decide (v = 0)) s) :
    ∃ s', DecimalText.intFullParts (maskOf neg) size s i n = .ok s' ∧
      Printed to' (u ++ intText int) rest (decide (int = 0)) s' := by
  induction n generalizing i v s with
  | zero =>
    obtain rfl : v = int := by simpa using hv
    have hdata : s.data = rest := by
      rw [h.data]
      cases neg <;> rfl
    exact ⟨s, rfl, h.pos, h.holds, hdata, h.isZero⟩
  | succ n ih =>
    have hg : int / 10 ^ (9 * n) % 10 ^ 9 < 10 ^ 9 := Nat.mod_lt _ (by omega)
    have hnext : v * 10 ^ 9 + int / 10 ^ (9 * n) % 10 ^ 9 = int / 10 ^ (9 * n) := by
      rw [hv, Nat.mul_succ, Nat.pow_add, ← Nat.div_div_eq_div_mul]
      exact Nat.div_add_mod' _ _
    have hread := mi_skorr_part (w := 4) (by omega)
      (show int / 10 ^ (9 * n) % 10 ^ 9 < 2 ^ (8 * 4 - 1) by omega) neg
    obtain ⟨s₁, hput, hs₁⟩ := h.putFullPart hg hi
    rw [hnext] at hs₁
    rw [fullParts, invertIf_append, List.append_assoc] at h hs₁
    simp only [DecimalText.intFullParts, mi_sint4korr, h.data, hread, Exec.ok_bind, ofInt_xor_maskOf,
      hput, hs₁.data, advance_part]
    exact ih rfl (fun _ => .inl (Nat.succ_pos i)) ⟨hs₁.pos, hs₁.holds, rfl, hs₁.isZero⟩

/-! ## Behind the point -/

theorem Printed.fracFullParts {neg : Bool} {frac : Nat} (n : Nat)
    (h : Printed to' u (invertIf neg (fullParts n frac) ++ rest) z s) :
    ∃ s', s.fracFullParts (maskOf neg) n = .ok s' ∧
      Printed to' (u ++ lastDigits (9 * n) frac) rest z s' := by
  induction n generalizing u s with
  | zero =>
    have hdata : s.data = rest := by
      rw [h.data]
      cases neg <;> rfl
    exact ⟨s, rfl, by simpa [lastDigits] using h.pos, by simpa [lastDigits] using h.holds, hdata,
      h.isZero⟩
  | succ n ih =>
    have hg : frac / 10 ^ (9 * n) % 10 ^ 9 < 10 ^ 9 := Nat.mod_lt _ (by omega)
    have hread := mi_skorr_part (w := 4) (by omega)
      (show frac / 10 ^ (9 * n) % 10 ^ 9 < 2 ^ (8 * 4 - 1) by omega) neg
    obtain ⟨s₁, hput, hs₁⟩ := h.putPadded (w := 9) (by omega) (by omega) hg
    rw [fullParts, invertIf_append, List.append_assoc] at h hs₁
    simp only [DecimalText.fracFullParts, mi_sint4korr, h.data, hread, Exec.ok_bind,
      ofInt_xor_maskOf, hput, hs₁.data, advance_part]
    have hdigits : lastDigits 9 (frac / 10 ^ (9 * n) % 10 ^ 9) ++ lastDigits (9 * n) frac =
        lastDigits (9 * (n + 1)) frac := by
      rw [lastDigits_mod, ← lastDigits_add_split, Nat.mul_succ, Nat.add_comm]
    have hrun := ih (s := { s₁ with data := invertIf neg (fullParts n frac) ++ rest })
      ⟨hs₁.pos, hs₁.holds, rfl, hs₁.isZero⟩
    rwa [List.append_assoc, hdigits] at hrun

theorem Printed.fracFirstPart {neg : Bool} {k n g : Nat} (hk : k < 10) (hn : n < 10)
    (hg : g < 10 ^ k) (h : Printed to' u (invertIf neg (BE.bytes (partSize k) g) ++ rest) z s) :
    ∃ s', s.fracFirstPart (maskOf neg) n k (partSize k) = .ok s' ∧
      Printed to' (u ++ lastDigits k (g % 256 ^ partSize n)) rest z s' := by
  obtain ⟨-, -, -, hzero, -⟩ := partSize_spec k hk
  unfold DecimalText.fracFirstPart
  split
  next hpos =>
    have hcut : g % 256 ^ partSize n < 10 ^ k := Nat.lt_of_le_of_lt (Nat.mod_le _ _) hg
    obtain ⟨s₁, hput, hs₁⟩ := h.putPadded (w := k) (by omega) (by omega) hcut
    simp only [h.data, getPartNumberFromDecimal_eq hk (by omega) hg, tableAt_digMasks hn,
      Exec.ok_bind, ofInt_xor_maskOf, ofNat_and_mask g _ (partSize_spec n hn).2.2.1, hput, hs₁.data,
      advance_part]
    exact ⟨_, rfl, hs₁.pos, hs₁.holds, rfl, hs₁.isZero⟩
  next hpos =>
    have hk0 : k = 0 := hzero.mp (by omega)
    subst hk0
    have hdata : s.data = rest := by
      rw [h.data]
      cases neg <;> rfl
    rw [lastDigits, List.append_nil]
    exact ⟨s, rfl, h.pos, h.holds, hdata, h.isZero⟩

theorem sub_div_mul (n : Nat) : n - n / 9 * 9 = n % 9 := by omega

theorem Printed.fraction {neg : Bool} {scale n frac : Nat} (hn : n < 10)
    (h : Printed to' u (invertIf neg (fullParts (scale / 9) (frac / 10 ^ (scale % 9)) ++
      BE.bytes (partSize (scale % 9)) (frac % 10 ^ (scale % 9))) ++ rest) z s) :
    ∃ s', s.fraction (maskOf neg) scale n = .ok s' ∧
      Printed to' (u ++ if 0 < scale then 0x2e ::
        (lastDigits (9 * (scale / 9)) (frac / 10 ^ (scale % 9)) ++
          lastDigits (scale % 9) (frac % 10 ^ (scale % 9) % 256 ^ partSize n)) else []) rest z s' := by
  have hk : scale % 9 < 10 := by omega
  rw [DecimalText.fraction, sub_div_mul, tableAt_dig2bytes hk, Exec.ok_bind]
  split
  next hpos =>
    rw [invertIf_append, List.append_assoc] at h
    obtain ⟨s₁, hfull, hs₁⟩ := (h.put 0x2e).fracFullParts (scale / 9)
    obtain ⟨s₂, hfirst, hs₂⟩ := hs₁.fracFirstPart hk hn (Nat.mod_lt _ (Nat.pow_pos (by omega)))
    rw [hfull, Exec.ok_bind]
    exact ⟨s₂, hfirst, by simpa [List.append_assoc] using hs₂⟩
  next hzero =>
    obtain rfl : scale = 0 := by omega
    have hdata : s.data = rest := by
      rw [h.data]
      cases neg <;> rfl
    rw [List.append_nil]
    exact ⟨s, rfl, h.pos, h.holds, hdata, h.isZero⟩

/-! ## The sign -/

/-- The bytes do not begin with a bit that is set. -/
def HeadClear (bs : List UInt8) : Prop := ∀ b ∈ bs.head?, b.toNat < 128

theorem HeadClear.append {l r : List UInt8} (hl : HeadClear l) (hr : HeadClear r) :
    HeadClear (l ++ r) := by
  cases l with
  | nil => exact hr
  | cons b l => exact hl

theorem headClear_part {k g : Nat} (hk : k < 10) (hg : g < 10 ^ k) :
    HeadClear (BE.bytes (partSize k) g) := by
  obtain ⟨-, -, -, -, hpow⟩ := partSize_spec k hk
  exact fun b hb => BE.head?_bytes_lt (Nat.lt_of_lt_of_le hg hpow) hb

theorem headClear_fullParts (n v : Nat) : HeadClear (fullParts n v) := by
  induction n with
  | zero => exact fun b hb => by cases hb
  | succ n ih =>
    refine HeadClear.append (fun b hb => BE.head?_bytes_lt ?_ hb) ih
    omega

theorem length_fullParts (n v : Nat) : (fullParts n v).length = 4 * n := by
  induction n with
  | zero => rfl
  | succ n ih => rw [fullParts, List.length_append, BE.length_bytes, ih, Nat.mul_succ, Nat.add_comm]

theorem flip_positive : ∀ n < 128, (UInt8.ofNat n ^^^ 0x80) &&& 0x80 ≠ 0 ∧
    (UInt8.ofNat n ^^^ 0x80) &&& ~~~0x80 = UInt8.ofNat n := by decide +kernel

theorem flip_negative : ∀ n < 128, (~~~UInt8.ofNat n ^^^ 0x80) &&& 0x80 = 0 ∧
    (~~~UInt8.ofNat n ^^^ 0x80) ||| 0x80 = ~~~UInt8.ofNat n := by decide +kernel

namespace Decimal

variable {prec scale : Nat} (v : Decimal prec scale)

theorem headClear_bytes : HeadClear (v.intBytes ++ v.fracBytes) := by
  have hint : v.int / 10 ^ (9 * ((prec - scale) / 9)) < 10 ^ ((prec - scale) % 9) := by
    apply Nat.div_lt_of_lt_mul
    rw [← Nat.pow_add, Nat.div_add_mod]
    exact v.int_lt
  have hfrac : v.frac % 10 ^ (scale % 9) < 10 ^ (scale % 9) := Nat.mod_lt _ (Nat.pow_pos (by omega))
  exact ((headClear_part (by omega) hint).append (headClear_fullParts _ _)).append
    ((headClear_fullParts _ _).append (headClear_part (by omega) hfrac))

theorem bytes_ne_nil (hprec : 0 < prec) : v.intBytes ++ v.fracBytes ≠ [] := by
  intro h
  obtain ⟨-, -, -, hint, -⟩ := partSize_spec ((prec - scale) % 9) (by omega)
  obtain ⟨-, -, -, hfrac, -⟩ := partSize_spec (scale % 9) (by omega)
  have hlength := congrArg List.length h
  simp only [intBytes, fracBytes, List.length_append, BE.length_bytes, length_fullParts,
    List.length_nil] at hlength
  omega

theorem encode_eq_cons (hprec : 0 < prec) (rest : List UInt8) :
    ∃ first tail, v.encode ++ rest = first :: tail ∧ decide (first &&& 0x80 = 0) = v.neg ∧
      (if v.neg then first ||| 0x80 else first &&& ~~~0x80) :: tail =
        invertIf v.neg (v.intBytes ++ v.fracBytes) ++ rest := by
  obtain ⟨b, bs, hraw⟩ := List.exists_cons_of_ne_nil (v.bytes_ne_nil hprec)
  have hb : b.toNat < 128 := by
    have hclear := v.headClear_bytes
    rw [hraw] at hclear
    exact hclear b rfl
  rw [encode, hraw]
  cases v.neg with
  | false =>
    obtain ⟨hbit, hback⟩ := flip_positive b.toNat hb
    rw [UInt8.ofNat_toNat] at hbit hback
    exact ⟨b ^^^ 0x80, bs ++ rest, rfl, decide_eq_false hbit, by simp [invertIf, hback]⟩
  | true =>
    obtain ⟨hbit, hback⟩ := flip_negative b.toNat hb
    rw [UInt8.ofNat_toNat] at hbit hback
    exact ⟨~~~b ^^^ 0x80, bs.map (~~~ ·) ++ rest, rfl, decide_eq_true hbit, by
      simp [invertIf, hback]⟩

end Decimal

/-! ## The text -/

theorem Printed.zeroDigit {v : Nat} (h : Printed to' (u ++ intText v) rest (decide (v = 0)) s) :
    ∃ z, Printed to' (u ++ decimal v) rest z (if s.isZero then s.put 0x30 else s) := by
  by_cases hv : v = 0
  · obtain rfl := hv
    have hput := h.put 0x30
    have hz : s.isZero = true := h.isZero
    rw [if_pos hz]
    rw [show u ++ intText 0 = u from List.append_nil u] at hput
    exact ⟨_, hput⟩
  · rw [intText, if_neg hv] at h
    rw [if_neg (by simp [h.isZero, hv])]
    exact ⟨_, h⟩

theorem printed_sign (neg : Bool) (data : List UInt8) (to' : Nat) (mem : RawMemory) :
    Printed to' (if neg then [0x2d] else []) data true
      (if neg then DecimalText.put ⟨data, to', mem, true⟩ 0x2d else ⟨data, to', mem, true⟩) := by
  have hempty : Printed to' [] data true ⟨data, to', mem, true⟩ := ⟨rfl, .nil, rfl, rfl⟩
  cases neg with
  | false => exact hempty
  | true => exact hempty.put 0x2d

theorem parseDecimalToString_encode {prec scale : Nat} (hprec : 0 < prec) (hmax : prec < 256)
    (hscale : scale ≤ prec) (v : Decimal prec scale) (rest : List UInt8) (to' : Nat)
    (mem : RawMemory) :
    ∃ mem', parseDecimalToString (v.encode ++ rest) to' prec scale mem =
        .ok (v.cutText.length + 1, rest, mem') ∧ Holds to' (v.cutText ++ [0]) mem' := by
  have hintSize : (prec + 256 - scale) % 256 = prec - scale := by omega
  have hk : (prec - scale) % 9 < 10 := by omega
  have hint : v.int / 10 ^ (9 * ((prec - scale) / 9)) < 10 ^ ((prec - scale) % 9) := by
    apply Nat.div_lt_of_lt_mul
    rw [← Nat.pow_add, Nat.div_add_mod]
    exact v.int_lt
  obtain ⟨first, tail, hdata, hsign, hset⟩ := v.encode_eq_cons hprec rest
  have hmask : (if first &&& 0x80 ≠ 0 then 0 else -1 : BitVec 32) = maskOf v.neg := by
    rw [maskOf, ← hsign]
    by_cases hbit : first &&& 0x80 = 0 <;> simp [hbit]
  -- one part after the other
  have h₀ := printed_sign v.neg (invertIf v.neg (v.intBytes ++ v.fracBytes) ++ rest) to' mem
  rw [Decimal.intBytes, invertIf_append, invertIf_append, List.append_assoc, List.append_assoc,
    Decimal.fracBytes] at h₀ hset
  obtain ⟨s₁, hfirst, h₁⟩ := h₀.intFirstPart hk hint
  have hsize : v.int / 10 ^ (9 * ((prec - scale) / 9)) ≠ 0 →
      0 < 0 ∨ 0 < partSize ((prec - scale) % 9) := by
    intro hne
    obtain ⟨-, -, -, hzero, -⟩ := partSize_spec _ hk
    by_contra hnone
    rw [hzero.mp (by omega), Nat.pow_zero] at hint
    exact hne (Nat.lt_one_iff.mp hint)
  obtain ⟨s₂, hfull, h₂⟩ := h₁.intFullParts ((prec - scale) / 9) rfl hsize
  obtain ⟨z, h₃⟩ := h₂.zeroDigit
  obtain ⟨s₄, hfrac, h₄⟩ := h₃.fraction hk
  have h₅ := h₄.put 0
  refine ⟨(s₄.put 0).mem, ?_, h₅.holds⟩
  have hget : tableAt (first :: tail) 0 = .ok first := rfl
  simp only [hdata, parseDecimalToString, hget, Exec.ok_bind, hintSize, sub_div_mul,
    tableAt_dig2bytes hk, List.set_cons_zero, hsign, hmask, hset, hfirst, hfull, hfrac]
  rw [h₅.pos, h₅.data, Nat.add_sub_cancel_left, List.length_append]
  rfl

/-! ## Exactness -/

/-- The text of the value is written, with a byte 0 behind it, and what follows the value is left. -/
def WritesText (text rest : List UInt8) (to' : Nat) (r : Exec (Nat × List UInt8 × RawMemory)) :
    Prop :=
  ∃ mem', r = .ok (text.length + 1, rest, mem') ∧ mem'.read to' (text.length + 1) = text ++ [0]

theorem Decimal.cutText_eq_iff {prec scale : Nat} (v : Decimal prec scale) :
    v.cutText = v.text ↔
      v.frac % 10 ^ (scale % 9) < 256 ^ partSize ((prec - scale) % 9) := by
  have hlt : v.frac % 10 ^ (scale % 9) < 10 ^ (scale % 9) := Nat.mod_lt _ (Nat.pow_pos (by omega))
  have hpow : 0 < 256 ^ partSize ((prec - scale) % 9) := Nat.pow_pos (by omega)
  have hdigits : lastDigits scale v.frac =
      lastDigits (9 * (scale / 9)) (v.frac / 10 ^ (scale % 9)) ++
        lastDigits (scale % 9) (v.frac % 10 ^ (scale % 9)) := by
    rw [lastDigits_mod, ← lastDigits_add_split, Nat.div_add_mod]
  rw [cutText, text, List.append_cancel_left_eq]
  split
  · rw [hdigits, List.cons_inj_right, List.append_cancel_left_eq, cutPart]
    constructor
    · intro h
      have hcut : v.frac % 10 ^ (scale % 9) % 256 ^ partSize ((prec - scale) % 9) <
          10 ^ (scale % 9) := Nat.lt_of_le_of_lt (Nat.mod_le _ _) hlt
      rw [← lastDigits_inj hcut hlt h]
      exact Nat.mod_lt _ hpow
    · intro h
      rw [Nat.mod_eq_of_lt h]
  next hzero =>
    obtain rfl : scale = 0 := by omega
    have hone : v.frac % 10 ^ (0 % 9) = 0 := Nat.mod_one _
    simp only [hone, hpow]

theorem writesText_iff {prec scale : Nat} (hprec : 0 < prec) (hmax : prec < 256)
    (hscale : scale ≤ prec) (v : Decimal prec scale) (rest : List UInt8) (to' : Nat)
    (mem : RawMemory) :
    WritesText v.text rest to' (parseDecimalToString (v.encode ++ rest) to' prec scale mem) ↔
      v.cutText = v.text := by
  obtain ⟨mem', hrun, hholds⟩ := parseDecimalToString_encode hprec hmax hscale v rest to' mem
  rw [Holds, List.length_append, List.length_singleton] at hholds
  constructor
  · rintro ⟨mem'', hrun', hread⟩
    obtain ⟨hlength, -, rfl⟩ : v.cutText.length + 1 = v.text.length + 1 ∧ rest = rest ∧
        mem' = mem'' := by
      simpa using hrun.symm.trans hrun'
    rw [hlength, hread] at hholds
    exact (List.append_cancel_right hholds).symm
  · intro h
    rw [h] at hrun hholds
    exact ⟨mem', hrun, hholds⟩

/-- A decimal is decoded exactly if and only if the number of its last digits, those that fill no
part of nine, fits into the bytes of the first digits in front of the point. -/
theorem parseDecimalToString_exact_iff {prec scale : Nat} (hprec : 1 ≤ prec) (hmax : prec < 256)
    (hscale : scale ≤ prec) (v : Decimal prec scale) (rest : List UInt8) (to' : Nat)
    (mem : RawMemory) :
    WritesText v.text rest to' (parseDecimalToString (v.encode ++ rest) to' prec scale mem) ↔
      v.frac % 10 ^ (scale % 9) < 256 ^ partSize ((prec - scale) % 9) := by
  rw [writesText_iff hprec hmax hscale, v.cutText_eq_iff]

/-- -1.1234 of a `DECIMAL(9, 4)`. -/
theorem parseDecimalToString_exact_nine :
    let v : Decimal 9 4 := ⟨true, 1, 1234, by decide, by decide⟩
    WritesText v.text [] 0 (parseDecimalToString (v.encode ++ []) 0 9 4 fun _ => 0) ↔
      v.frac % 10 ^ (4 % 9) < 256 ^ partSize ((9 - 4) % 9) :=
  parseDecimalToString_exact_iff (by decide) (by decide) (by decide) _ _ _ _

/-- 1.50 of a `DECIMAL(11, 2)`: there are only full parts in front of the point. -/
theorem parseDecimalToString_cuts :
    let v : Decimal 11 2 := ⟨false, 1, 50, by decide, by decide⟩
    ¬ WritesText v.text [] 0 (parseDecimalToString (v.encode ++ []) 0 11 2 fun _ => 0) := by
  intro v h
  have hcut := (writesText_iff (by decide) (by decide) (by decide) v [] 0 _).mp h
  exact absurd (v.cutText_eq_iff.mp hcut) (by decide)

end DBStream.Native.DATA_SOURCE
