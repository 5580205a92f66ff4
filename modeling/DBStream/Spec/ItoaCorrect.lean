import DBStream.ForStd.Decimal
import DBStream.Spec.JsonRendered

/-!
# Integers as text

The functions of `util/itoaSse.h` write the decimal text of their number and a byte 0 behind it,
and return the length of both.  The branches by size are the numbers of digits.
-/

namespace DBStream.Native

namespace DATA_SOURCE.JsonColumn

theorem Convert8DigitsSSE2_eq (value : Nat) : Convert8DigitsSSE2 value = lastDigits 8 value := by
  simp only [Convert8DigitsSSE2, lastDigits, List.map_cons, List.map_nil, List.nil_append,
    List.cons_append, Nat.div_div_eq_div_mul, Nat.reduceMul, Nat.div_one]
  rfl

theorem gDigitsLut_even (n : Nat) : gDigitsLut (n * 2) = digitByte (n / 10) := by
  rw [gDigitsLut, if_pos (by omega), Nat.mul_div_cancel _ (by omega), digitByte]

theorem gDigitsLut_odd (n : Nat) : gDigitsLut (n * 2 + 1) = digitByte (n % 10) := by
  rw [gDigitsLut, if_neg (by omega), show (n * 2 + 1) / 2 = n by omega, digitByte]

/-! ## `u32toa_sse2` -/

theorem decimal_of_lt_10000 {value : Nat} (h : value < 10000) :
    (if 1000 ≤ value then [digitByte (value / 100 / 10)] else []) ++
      (if 100 ≤ value then [digitByte (value / 100 % 10)] else []) ++
      (if 10 ≤ value then [digitByte (value % 100 / 10)] else []) ++
      [digitByte (value % 100 % 10)] = decimal value := by
  have h₁ : value / 100 / 10 = value / 10 / 10 / 10 % 10 := by omega
  have h₂ : value / 100 % 10 = value / 10 / 10 % 10 := by omega
  have h₃ : value % 100 / 10 = value / 10 % 10 := by omega
  have h₄ : value % 100 % 10 = value % 10 := by omega
  rw [h₁, h₂, h₃, h₄]
  by_cases hthousand : 1000 ≤ value
  · rw [if_pos hthousand, if_pos (by omega), if_pos (by omega),
      decimal_eq_lastDigits (w := 3) (.inl hthousand) h]
    rfl
  rw [if_neg hthousand]
  by_cases hhundred : 100 ≤ value
  · rw [if_pos hhundred, if_pos (by omega),
      decimal_eq_lastDigits (w := 2) (.inl hhundred) (by omega)]
    rfl
  rw [if_neg hhundred]
  by_cases hten : 10 ≤ value
  · rw [if_pos hten, decimal_eq_lastDigits (w := 1) (.inl hten) (by omega)]
    rfl
  · rw [if_neg hten, decimal_eq_lastDigits (w := 0) (.inr rfl) (by omega)]
    rfl

theorem digits_of_lt_10000 {value : Nat} (h : value < 10000) :
    (if 1000 ≤ value then [gDigitsLut (value / 100 * 2)] else []) ++
      (if 100 ≤ value then [gDigitsLut (value / 100 * 2 + 1)] else []) ++
      (if 10 ≤ value then [gDigitsLut (value % 100 * 2)] else []) ++
      [gDigitsLut (value % 100 * 2 + 1)] = decimal value := by
  simp only [gDigitsLut_even, gDigitsLut_odd]
  exact decimal_of_lt_10000 h

theorem digits_of_lt_100000000 {value : Nat} (hge : 10000 ≤ value) (hlt : value < 100000000) :
    (if 10000000 ≤ value then [gDigitsLut (value / 10000 / 100 * 2)] else []) ++
      (if 1000000 ≤ value then [gDigitsLut (value / 10000 / 100 * 2 + 1)] else []) ++
      (if 100000 ≤ value then [gDigitsLut (value / 10000 % 100 * 2)] else []) ++
      [gDigitsLut (value / 10000 % 100 * 2 + 1), gDigitsLut (value % 10000 / 100 * 2),
        gDigitsLut (value % 10000 / 100 * 2 + 1), gDigitsLut (value % 10000 % 100 * 2),
        gDigitsLut (value % 10000 % 100 * 2 + 1)] = decimal value := by
  have hfront : value / 10000 < 10000 := by omega
  have hlast : lastDigits 4 value = [digitByte (value % 10000 / 100 / 10),
      digitByte (value % 10000 / 100 % 10), digitByte (value % 10000 % 100 / 10),
      digitByte (value % 10000 % 100 % 10)] := by
    rw [show value % 10000 / 100 / 10 = value / 10 / 10 / 10 % 10 by omega,
      show value % 10000 / 100 % 10 = value / 10 / 10 % 10 by omega,
      show value % 10000 % 100 / 10 = value / 10 % 10 by omega,
      show value % 10000 % 100 % 10 = value % 10 by omega]
    rfl
  have h₁ : 10000000 ≤ value ↔ 1000 ≤ value / 10000 := by omega
  have h₂ : 1000000 ≤ value ↔ 100 ≤ value / 10000 := by omega
  have h₃ : 100000 ≤ value ↔ 10 ≤ value / 10000 := by omega
  rw [decimal_split (w := 4) (by omega), show 10 ^ 4 = 10000 from rfl,
    ← decimal_of_lt_10000 hfront, hlast]
  simp [gDigitsLut_even, gDigitsLut_odd, h₁, h₂, h₃]

theorem digits_of_ge {value : Nat} (hge : 100000000 ≤ value) (hlt : value < 2 ^ 32) :
    (if 10 ≤ value / 100000000 then
        [gDigitsLut (value / 100000000 * 2), gDigitsLut (value / 100000000 * 2 + 1)]
      else [UInt8.ofNat (0x30 + value / 100000000)]) ++
      Convert8DigitsSSE2 (value % 100000000) = decimal value := by
  rw [decimal_split (w := 8) (by omega), Convert8DigitsSSE2_eq, ← lastDigits_mod 8 value,
    show 10 ^ 8 = 100000000 from rfl]
  simp only [gDigitsLut_even, gDigitsLut_odd]
  by_cases hten : 10 ≤ value / 100000000
  · rw [if_pos hten, decimal_eq_lastDigits (w := 1) (.inl hten) (by omega)]
    simp only [lastDigits, Nat.mod_eq_of_lt (show value / 100000000 / 10 < 10 by omega)]
    rfl
  · rw [if_neg hten, decimal_eq, if_pos (by omega)]
    rfl

theorem u32toa_sse2_eq {value : Nat} (h : value < 2 ^ 32) (dest : Nat) (m : RawMemory) :
    u32toa_sse2 value dest m = put (decimal value ++ [0]) dest m := by
  unfold u32toa_sse2
  split
  · rw [← digits_of_lt_10000 ‹_›]
    simp
  split
  · rw [← digits_of_lt_100000000 (by omega) ‹_›]
    simp only [List.append_assoc, List.cons_append, List.nil_append]
  · rw [← digits_of_ge (by omega) h]

/-- The decimal text and the byte 0 are at the end of what was there, and the length is theirs. -/
def AppendsText (base : Nat) (u text : List UInt8) (r : Int × RawMemory) : Prop :=
  r.1 = (text.length + 1 : Nat) ∧ Holds base (u ++ text ++ [0]) r.2

variable {base : Nat} {u : List UInt8} {m : RawMemory}

theorem put_appendsText (text : List UInt8) (h : Holds base u m) :
    AppendsText base u text (put (text ++ [0]) (base + u.length) m) :=
  ⟨by simp [put], by simpa [put] using h.write (text ++ [0])⟩

theorem u32toa_sse2_appendsText {value : Nat} (hvalue : value < 2 ^ 32) (h : Holds base u m) :
    AppendsText base u (decimal value) (u32toa_sse2 value (base + u.length) m) := by
  rw [u32toa_sse2_eq hvalue]
  exact put_appendsText _ h

theorem i32toa_sse2_appendsText {value : Int} (hlow : -2 ^ 31 ≤ value) (hhigh : value < 2 ^ 31)
    (h : Holds base u m) :
    AppendsText base u (signedDecimal value) (i32toa_sse2 value (base + u.length) m) := by
  unfold i32toa_sse2 signedDecimal
  split
  · obtain ⟨hlength, hholds⟩ := u32toa_sse2_appendsText (show value.natAbs < 2 ^ 32 by omega)
      (h.write [0x2d])
    rw [List.length_append, ← Nat.add_assoc] at hlength hholds
    refine ⟨?_, by simpa using hholds⟩
    rw [List.length_singleton] at hlength
    simp [hlength]
  · exact u32toa_sse2_appendsText (by omega) h

/-! ## `u64toa_sse2` -/

private theorem drop_zeros {value : Nat} (hpos : 0 < value) (h : value < 10 ^ 16) :
    (lastDigits 16 value).drop (min 15 ((lastDigits 16 value).takeWhile (· = 0x30)).length) =
        decimal value ∧
      min 15 ((lastDigits 16 value).takeWhile (· = 0x30)).length = 16 - (decimal value).length := by
  obtain ⟨hlength, heq⟩ := lastDigits_eq_decimal (w := 16) (by omega) h
  have hne := List.length_pos_iff.mpr (decimal_ne_nil value)
  have htake : (decimal value).takeWhile (fun b => decide (b = 0x30)) = [] := by
    have hhead := decimal_head_ne hpos
    cases hdecimal : decimal value with
    | nil => rfl
    | cons b l =>
      rw [hdecimal] at hhead
      exact List.takeWhile_cons_of_neg (by simpa using hhead)
  rw [heq, List.takeWhile_append_of_pos (by simp), htake, List.append_nil, List.length_replicate,
    Nat.min_eq_right (by omega), List.drop_left' (by simp)]
  exact ⟨rfl, rfl⟩

theorem sixteen_digits (value : Nat) :
    Convert8DigitsSSE2 (value / 100000000) ++ Convert8DigitsSSE2 (value % 100000000) =
      lastDigits 16 value := by
  rw [Convert8DigitsSSE2_eq, Convert8DigitsSSE2_eq, show 100000000 = 10 ^ 8 from rfl,
    lastDigits_mod, ← lastDigits_add_split]

theorem decimal_of_lt_10000' {a : Nat} (h : a < 10000) :
    (if a < 10 then [UInt8.ofNat (0x30 + a)]
      else if a < 100 then [gDigitsLut (a * 2), gDigitsLut (a * 2 + 1)]
      else if a < 1000 then [UInt8.ofNat (0x30 + a / 100), gDigitsLut (a % 100 * 2),
        gDigitsLut (a % 100 * 2 + 1)]
      else [gDigitsLut (a / 100 * 2), gDigitsLut (a / 100 * 2 + 1), gDigitsLut (a % 100 * 2),
        gDigitsLut (a % 100 * 2 + 1)]) = decimal a := by
  simp only [gDigitsLut_even, gDigitsLut_odd]
  rw [← decimal_of_lt_10000 h, show a % 100 % 10 = a % 10 by omega]
  by_cases h₁ : a < 10
  · rw [if_pos h₁, if_neg (by omega), if_neg (by omega), if_neg (by omega), Nat.mod_eq_of_lt h₁]
    rfl
  by_cases h₂ : a < 100
  · rw [if_neg h₁, if_pos h₂, if_neg (by omega), if_neg (by omega), if_pos (by omega),
      Nat.mod_eq_of_lt h₂]
    rfl
  by_cases h₃ : a < 1000
  · rw [if_neg h₁, if_neg h₂, if_pos h₃, if_neg (by omega), if_pos (by omega), if_pos (by omega),
      Nat.mod_eq_of_lt (show a / 100 < 10 by omega)]
    rfl
  · rw [if_neg h₁, if_neg h₂, if_neg h₃, if_pos (by omega), if_pos (by omega), if_pos (by omega)]
    rfl

theorem u64toa_sse2_appendsText {value : Nat} (hvalue : value < 2 ^ 64) (h : Holds base u m) :
    AppendsText base u (decimal value) (u64toa_sse2 value (base + u.length) m) := by
  unfold u64toa_sse2
  split
  · exact u32toa_sse2_appendsText (by omega) h
  split
  · rw [sixteen_digits]
    extract_lets va digit m₁
    obtain ⟨hdrop, hdigit⟩ := drop_zeros (show 0 < value by omega) ‹_›
    have hlength := (lastDigits_eq_decimal (w := 16) (n := value) (by omega) ‹_›).1
    have hm₁ : Holds base (u ++ decimal value) m₁ := by
      refine (h.write ((lastDigits 16 value).drop digit ++ List.replicate digit 0)).shorten ?_
      rw [hdrop, ← List.append_assoc]
      exact List.prefix_append _ _
    have hend := hm₁.write [0]
    rw [List.length_append, ← Nat.add_assoc] at hend
    have hsixteen : 16 - digit = (decimal value).length := by
      rw [show digit = 16 - (decimal value).length from hdigit]
      omega
    rw [hsixteen]
    exact ⟨rfl, hend⟩
  · have ha : value / 10000000000000000 < 10000 := by omega
    dsimp only
    rw [decimal_of_lt_10000' ha, List.append_assoc (decimal _), sixteen_digits,
      decimal_split (w := 16) (by omega), ← lastDigits_mod 16 value]
    exact put_appendsText _ h

end DATA_SOURCE.JsonColumn

end DBStream.Native
