import DBStream.Spec.DecimalText
import DBStream.Spec.TimeOrder

/-!
# Times with a fraction

The binary formats of `TIMESTAMP`, `DATETIME` and `TIME` columns with a precision, and what their
parsers store.
-/

namespace DBStream.Native.DATA_SOURCE

open JsonColumn Meta

/-! ## Reading -/

theorem mi_ukorr_bytes {w n : Nat} (h : n < 256 ^ w) (rest : List UInt8) :
    mi_ukorr w (BE.bytes w n ++ rest) = .ok n := by
  rw [mi_ukorr, if_pos (by simp), List.take_left' (by simp), BE.nat_bytes_of_lt h]

theorem mi_skorr_bytes {w n : Nat} (hw : 0 < w) (h : n < 2 ^ (8 * w - 1)) (rest : List UInt8) :
    mi_skorr w (BE.bytes w n ++ rest) = .ok n := by
  simpa [invertIf] using mi_skorr_part hw h false rest

theorem binary_length_eq {dec : Nat} (h : dec ≤ 6) (n : Nat) :
    binary_length n dec = .ok (n + (dec + 1) / 2) := if_pos h

/-! ## Fractions -/

def fractionSize (dec : Nat) : Nat := (dec + 1) / 2

/-- The microseconds of one in the last place of these bytes. -/
def fractionUnit (dec : Nat) : Nat := 10 ^ (6 - 2 * fractionSize dec)

/-- A fraction of a second in microseconds, of `dec` digits. -/
@[ext] structure Fraction (dec : Nat) where
  usec : Nat
  usec_lt : usec < 10 ^ 6
  digits : 10 ^ (6 - dec) ∣ usec

namespace Fraction

variable {dec : Nat} (f : Fraction dec)

def encode : List UInt8 := BE.bytes (fractionSize dec) (f.usec / fractionUnit dec)

theorem div_mul_unit : f.usec / fractionUnit dec * fractionUnit dec = f.usec := by
  apply Nat.div_mul_cancel
  refine Nat.dvd_trans (Nat.pow_dvd_pow 10 ?_) f.digits
  rw [fractionSize]
  omega

theorem eq_zero_of_dec_zero (f : Fraction 0) : f.usec = 0 :=
  Nat.eq_zero_of_dvd_of_lt f.digits f.usec_lt

/-- The bytes are read as a number without a sign, and scaled to microseconds or to parts of
them. -/
theorem timeFraction_encode (hdec : dec ≤ 6) (pre rest : List UInt8) (k : Int) :
    timeFraction (pre ++ (f.encode ++ rest)) pre.length dec (10000 * k) (100 * k) k =
      .ok (f.usec * k) := by
  have hlt := f.usec_lt
  have hscale := f.div_mul_unit
  have hdrop : (pre ++ (f.encode ++ rest)).drop pre.length = f.encode ++ rest := List.drop_left
  obtain rfl | hone | htwo | hthree :
    dec = 0 ∨ (dec = 1 ∨ dec = 2) ∨ (dec = 3 ∨ dec = 4) ∨ (dec = 5 ∨ dec = 6) := by omega
  · rw [f.eq_zero_of_dec_zero, Int.natCast_zero, Int.zero_mul]
    rfl
  · have hunit : fractionUnit dec = 10000 := by obtain rfl | rfl := hone <;> rfl
    have hsize : fractionSize dec = 1 := by obtain rfl | rfl := hone <;> rfl
    rw [hunit] at hscale
    have hbyte : f.usec / 10000 < 2 ^ (8 * 1 - 1) := by omega
    have hget : tableAt (pre ++ (f.encode ++ rest)) pre.length =
        .ok (UInt8.ofNat (f.usec / 10000)) := by
      rw [tableAt, List.getElem?_append_right (Nat.le_refl _), Nat.sub_self, encode, hunit, hsize,
        BE.bytes_succ_eq_cons]
      simp
    have hresult : signed 1 (UInt8.ofNat (f.usec / 10000)).toNat = (f.usec / 10000 : Nat) := by
      rw [UInt8.toNat_ofNat', signed, Nat.mod_eq_of_lt (by omega), if_pos hbyte]
    have hvalue : ((f.usec / 10000 : Nat) : Int) * (10000 * k) = f.usec * k := by
      rw [← Int.mul_assoc]
      congr 1
      omega
    obtain rfl | rfl := hone <;>
      simp only [timeFraction, hget, Exec.ok_bind, Exec.pure_eq, hresult, hvalue]
  · have hunit : fractionUnit dec = 100 := by obtain rfl | rfl := htwo <;> rfl
    have hsize : fractionSize dec = 2 := by obtain rfl | rfl := htwo <;> rfl
    rw [hunit] at hscale
    have hread : mi_sint2korr (f.encode ++ rest) = .ok ((f.usec / 100 : Nat) : Int) := by
      rw [encode, hunit, hsize]
      exact mi_skorr_bytes (by omega) (by omega) rest
    have hvalue : ((f.usec / 100 : Nat) : Int) * (100 * k) = f.usec * k := by
      rw [← Int.mul_assoc]
      congr 1
      omega
    obtain rfl | rfl := htwo <;>
      simp only [timeFraction, hdrop, hread, Exec.ok_bind, Exec.pure_eq, hvalue]
  · have hunit : fractionUnit dec = 1 := by obtain rfl | rfl := hthree <;> rfl
    have hsize : fractionSize dec = 3 := by obtain rfl | rfl := hthree <;> rfl
    have hread : mi_sint3korr (f.encode ++ rest) = .ok (f.usec : Int) := by
      rw [encode, hunit, hsize, Nat.div_one]
      exact mi_skorr_bytes (by omega) (by omega) rest
    obtain rfl | rfl := hthree <;>
      simp [timeFraction, hread]

theorem length_encode : f.encode.length = (dec + 1) / 2 := BE.length_bytes _ _

theorem advance_encode (head rest : List UInt8) :
    advance (head.length + (dec + 1) / 2) (head ++ (f.encode ++ rest)) = .ok rest := by
  have hlength : (head ++ f.encode).length = head.length + (dec + 1) / 2 := by
    rw [List.length_append, f.length_encode]
  rw [← List.append_assoc, advance, if_pos (by rw [List.length_append]; omega), List.drop_left' hlength]

end Fraction

/-! ## `TIMESTAMP` and `DATETIME` -/

/-- A value of `TIMESTAMP(dec)`. -/
structure TimestampColumn (dec : Nat) extends Fraction dec where
  seconds : Nat
  seconds_lt : seconds < 2 ^ 32

def TimestampColumn.encode {dec : Nat} (v : TimestampColumn dec) : List UInt8 :=
  BE.bytes 4 v.seconds ++ v.toFraction.encode

/-- A value of `DATETIME(dec)`. -/
structure DateTimeColumn (dec : Nat) extends Fraction dec where
  year : Nat
  month : Nat
  day : Nat
  hour : Nat
  min : Nat
  sec : Nat
  year_le : year ≤ 9999
  month_le : month ≤ 12
  day_le : day ≤ 31
  hour_lt : hour < 24
  min_lt : min < 60
  sec_lt : sec < 60

namespace DateTimeColumn

variable {dec : Nat} (v : DateTimeColumn dec)

def packed : Nat :=
  ((v.year * 13 + v.month) * 2 ^ 5 + v.day) * 2 ^ 17 +
    ((v.hour * 2 ^ 6 + v.min) * 2 ^ 6 + v.sec)

def encode : List UInt8 := BE.bytes 5 (v.packed + 0x8000000000) ++ v.toFraction.encode

def fields : DateTime.Fields := ⟨v.year, v.month, v.day, v.hour, v.min, v.sec, v.usec⟩

private theorem fields_inRange : v.fields.InRange := by
  have := v.year_le
  have := v.month_le
  have := v.day_le
  have := v.hour_lt
  have := v.min_lt
  have := v.sec_lt
  have := v.usec_lt
  constructor <;> simp only [fields] <;> omega

private theorem packed_lt : v.packed < 2 ^ 39 := by
  have := v.year_le
  have := v.month_le
  have := v.day_le
  have := v.hour_lt
  have := v.min_lt
  have := v.sec_lt
  rw [packed]
  omega

theorem unpacked :
    v.packed / 2 ^ 17 / 2 ^ 5 / 13 = v.year ∧ v.packed / 2 ^ 17 / 2 ^ 5 % 13 = v.month ∧
      v.packed / 2 ^ 17 % 2 ^ 5 = v.day ∧ v.packed % 2 ^ 17 / 2 ^ 12 % 2 ^ 8 = v.hour ∧
      v.packed % 2 ^ 17 / 2 ^ 6 % 2 ^ 6 = v.min ∧ v.packed % 2 ^ 17 % 2 ^ 6 = v.sec := by
  have := v.month_le
  have := v.day_le
  have := v.hour_lt
  have := v.min_lt
  have := v.sec_lt
  have hymd : v.packed / 2 ^ 17 = (v.year * 13 + v.month) * 2 ^ 5 + v.day := by
    rw [packed]
    omega
  have hhms : v.packed % 2 ^ 17 = (v.hour * 2 ^ 6 + v.min) * 2 ^ 6 + v.sec := by
    rw [packed]
    omega
  rw [hymd, hhms]
  clear hymd hhms
  refine ⟨?_, ?_, ?_, ?_, ?_, ?_⟩ <;> omega

end DateTimeColumn

/-- The time that a parser stores in the column, with the bytes of the value read. -/
def StoresWord (word : BitVec 64) (colMeta : ColumnMeta) (newOrOld : Bool) (rest : List UInt8)
    (r : Exec (Option (SetCall × List UInt8))) : Prop :=
  r = .ok (some (setFixed newOrOld colMeta.m_columnIndex (LE.bytes 8 word.toNat), rest))

theorem parse_TIMESTAMP2_exact {dec : Nat} (hdec : dec ≤ 6) (v : TimestampColumn dec)
    {colMeta : ColumnMeta} (hprecision : colMeta.m_precision = dec) (junk : BitVec 64)
    (newOrOld : Bool) (rest : List UInt8) :
    ∃ t : Timestamp, t.fields = ⟨v.seconds, v.usec * 1000⟩ ∧
      StoresWord t.time colMeta newOrOld rest
        (parse_MYSQL_TYPE_TIMESTAMP2 junk colMeta (v.encode ++ rest) newOrOld) := by
  have hseconds := v.seconds_lt
  have husec := v.usec_lt
  have hfields := Timestamp.fields_create ⟨junk⟩ ⟨v.seconds, v.usec * 1000⟩
    ⟨show v.seconds < 2 ^ 34 by omega, show v.usec * 1000 < 2 ^ 30 by omega⟩
  refine ⟨_, hfields, ?_⟩
  have hread : mi_uint4korr (BE.bytes 4 v.seconds ++ (v.toFraction.encode ++ rest)) =
      .ok v.seconds := mi_ukorr_bytes (by omega) _
  have hfraction := v.timeFraction_encode hdec (BE.bytes 4 v.seconds) rest 1000
  have hadvance := v.advance_encode (BE.bytes 4 v.seconds) rest
  rw [BE.length_bytes] at hfraction hadvance
  have hlength : my_timestamp_binary_length dec = .ok (4 + (dec + 1) / 2) := binary_length_eq hdec 4
  have hnano : ((v.usec * 1000 : Int) % 2 ^ 32).toNat = v.usec * 1000 := by
    rw [Int.emod_eq_of_lt (by omega) (by omega)]
    omega
  simp only [Int.reduceMul] at hfraction
  rw [StoresWord, parse_MYSQL_TYPE_TIMESTAMP2, TimestampColumn.encode, hprecision,
    List.append_assoc, if_neg (by rw [DATETIME_MAX_DECIMALS]; omega), hread]
  simp only [Exec.ok_bind, hfraction, hnano, hlength, hadvance]
  rfl

theorem parse_DATETIME2_exact {dec : Nat} (hdec : dec ≤ 6) (v : DateTimeColumn dec)
    {colMeta : ColumnMeta} (hprecision : colMeta.m_precision = dec) (junk : BitVec 64)
    (newOrOld : Bool) (rest : List UInt8) :
    ∃ t : DateTime, t.fields = v.fields ∧
      StoresWord t.time colMeta newOrOld rest
        (parse_MYSQL_TYPE_DATETIME2 junk colMeta (v.encode ++ rest) newOrOld) := by
  have hpacked := v.packed_lt
  have husec := v.usec_lt
  have hyear := v.year_le
  refine ⟨_, DateTime.fields_set ⟨junk⟩ v.fields v.fields_inRange, ?_⟩
  have hread : mi_uint5korr (BE.bytes 5 (v.packed + 0x8000000000) ++
      (v.toFraction.encode ++ rest)) = .ok (v.packed + 0x8000000000) :=
    mi_ukorr_bytes (by omega) _
  have hfraction := v.timeFraction_encode hdec (BE.bytes 5 (v.packed + 0x8000000000)) rest 1
  have hadvance := v.advance_encode (BE.bytes 5 (v.packed + 0x8000000000)) rest
  rw [BE.length_bytes] at hfraction hadvance
  have hlength : my_datetime_binary_length dec = .ok (5 + (dec + 1) / 2) := binary_length_eq hdec 5
  have hoffset : (v.packed + 0x8000000000 + 2 ^ 64 - DATETIMEF_INT_OFS) % 2 ^ 64 = v.packed := by
    rw [DATETIMEF_INT_OFS]
    omega
  have hfrac : ((v.usec : Int) % 2 ^ 32).toNat = v.usec := by omega
  have hsigned : signed 4 (v.year % 2 ^ 32) = v.year := by
    rw [signed, Nat.mod_eq_of_lt (by omega), if_pos (by omega)]
  obtain ⟨h₁, h₂, h₃, h₄, h₅, h₆⟩ := v.unpacked
  simp only [Int.mul_one] at hfraction
  rw [StoresWord, parse_MYSQL_TYPE_DATETIME2, DateTimeColumn.encode, hprecision, List.append_assoc,
    hread]
  simp only [Exec.ok_bind, hfraction, hoffset, hfrac, hlength, hadvance, h₁, h₂, h₃, h₄, h₅, h₆,
    hsigned]
  rfl

/-- The values of the two types are stored with all their fields, and only their bytes are read. -/
theorem parse_times_exact {dec : Nat} (hdec : dec ≤ 6) {colMeta : ColumnMeta}
    (hprecision : colMeta.m_precision = dec) (junk : BitVec 64) (newOrOld : Bool)
    (rest : List UInt8) :
    (∀ v : TimestampColumn dec, v.encode.length = 4 + (dec + 1) / 2 ∧
      ∃ t : Timestamp, t.fields = ⟨v.seconds, v.usec * 1000⟩ ∧
        StoresWord t.time colMeta newOrOld rest
          (parse_MYSQL_TYPE_TIMESTAMP2 junk colMeta (v.encode ++ rest) newOrOld)) ∧
    ∀ v : DateTimeColumn dec, v.encode.length = 5 + (dec + 1) / 2 ∧
      ∃ t : DateTime, t.fields = v.fields ∧
        StoresWord t.time colMeta newOrOld rest
          (parse_MYSQL_TYPE_DATETIME2 junk colMeta (v.encode ++ rest) newOrOld) := by
  refine ⟨fun v => ⟨?_, parse_TIMESTAMP2_exact hdec v hprecision junk newOrOld rest⟩,
    fun v => ⟨?_, parse_DATETIME2_exact hdec v hprecision junk newOrOld rest⟩⟩
  · rw [TimestampColumn.encode, List.length_append, BE.length_bytes, v.length_encode]
  · rw [DateTimeColumn.encode, List.length_append, BE.length_bytes, v.length_encode]

/-- Columns with six digits. -/
theorem parse_times_exact_six :
    let colMeta : ColumnMeta := { m_columnType := .T_DATETIME, m_columnName := "c", m_precision := 6 }
    (∀ v : TimestampColumn 6, v.encode.length = 4 + (6 + 1) / 2 ∧
      ∃ t : Timestamp, t.fields = ⟨v.seconds, v.usec * 1000⟩ ∧
        StoresWord t.time colMeta true []
          (parse_MYSQL_TYPE_TIMESTAMP2 0 colMeta (v.encode ++ []) true)) ∧
    ∀ v : DateTimeColumn 6, v.encode.length = 5 + (6 + 1) / 2 ∧
      ∃ t : DateTime, t.fields = v.fields ∧
        StoresWord t.time colMeta true []
          (parse_MYSQL_TYPE_DATETIME2 0 colMeta (v.encode ++ []) true) :=
  parse_times_exact (Nat.le_refl 6) rfl 0 true []

/-! ## `TIME` -/

/-- A value of `TIME(dec)`. -/
@[ext] structure TimeColumn (dec : Nat) extends Fraction dec where
  neg : Bool
  hour : Nat
  min : Nat
  sec : Nat
  hour_le : hour ≤ 838
  min_lt : min < 60
  sec_lt : sec < 60
  max : hour = 838 → min = 59 → sec = 59 → usec = 0
  neg_ne_zero : neg = true → ¬ (hour = 0 ∧ min = 0 ∧ sec = 0 ∧ usec = 0)

namespace TimeColumn

variable {dec : Nat} (v : TimeColumn dec)

def withSign (n : Nat) : Int := if v.neg then -(n : Int) else n

def hms : Nat := (v.hour * 2 ^ 6 + v.min) * 2 ^ 6 + v.sec

def packed : Int := v.withSign (v.hms * 2 ^ 24 + v.usec)

def encode : List UInt8 :=
  if dec ≤ 4 then
    BE.bytes 3 (v.packed / 2 ^ 24 + 0x800000).toNat ++ BE.bytes (fractionSize dec)
      (v.withSign (v.usec / fractionUnit dec) % 256 ^ fractionSize dec).toNat
  else BE.bytes 6 (v.packed + 0x800000000000).toNat

theorem length_encode (hdec : dec ≤ 6) : v.encode.length = 3 + (dec + 1) / 2 := by
  rw [encode]
  split
  · rw [List.length_append, BE.length_bytes, BE.length_bytes, fractionSize]
  · rw [BE.length_bytes]
    omega

theorem hms_lt : v.hms < 2 ^ 22 := by
  have := v.hour_le
  have := v.min_lt
  have := v.sec_lt
  rw [hms]
  omega

theorem packed_div : v.packed / 2 ^ 24 =
    if v.neg ∧ v.usec ≠ 0 then -(v.hms : Int) - 1 else v.withSign v.hms := by
  have husec := v.usec_lt
  rw [packed, withSign, withSign]
  cases v.neg <;> by_cases h : v.usec = 0 <;> simp [h] <;> omega

def unpacked : Int × Int :=
  if dec = 3 ∨ dec = 4 then (0, 0)
  else if dec = 5 ∨ dec = 6 then (v.packed / 2 ^ 24, v.packed % 2 ^ 24)
  else (v.withSign v.hms, v.withSign v.usec)

theorem read_whole (hdec : dec ≤ 4) (rest : List UInt8) :
    ∃ n, mi_uint3korr (v.encode ++ rest) = .ok n ∧ (n : Int) - TIMEF_INT_OFS = v.packed / 2 ^ 24 := by
  have hhms := v.hms_lt
  have hdiv := v.packed_div
  have hrange : -2 ^ 23 ≤ v.packed / 2 ^ 24 ∧ v.packed / 2 ^ 24 < 2 ^ 23 := by
    rw [hdiv, withSign]
    cases v.neg <;> by_cases h : v.usec = 0 <;> simp [h] <;> omega
  refine ⟨(v.packed / 2 ^ 24 + 0x800000).toNat, ?_, by rw [TIMEF_INT_OFS]; omega⟩
  rw [encode, if_pos hdec, List.append_assoc]
  exact mi_ukorr_bytes (by omega) _

theorem drop_whole (hdec : dec ≤ 4) (rest : List UInt8) :
    (v.encode ++ rest).drop 3 = BE.bytes (fractionSize dec)
      (v.withSign (v.usec / fractionUnit dec) % 256 ^ fractionSize dec).toNat ++ rest := by
  rw [encode, if_pos hdec, List.append_assoc, List.drop_left' (BE.length_bytes _ _)]

private theorem read_hundredths (hdec : dec = 1 ∨ dec = 2) (rest : List UInt8) :
    ∃ b, tableAt (v.encode ++ rest) 3 = .ok b ∧
      (b.toNat : Int) = if v.neg ∧ v.usec ≠ 0 then 256 - (v.usec / 10000 : Nat) else v.usec / 10000 := by
  have husec := v.usec_lt
  have hscale := v.div_mul_unit
  have hunit : fractionUnit dec = 10000 := by obtain rfl | rfl := hdec <;> rfl
  have hsize : fractionSize dec = 1 := by obtain rfl | rfl := hdec <;> rfl
  have hdrop := v.drop_whole (by omega) rest
  rw [hunit, hsize, BE.bytes_succ_eq_cons, Int.pow_one, Nat.pow_zero, Nat.div_one] at hdrop
  rw [hunit] at hscale
  refine ⟨UInt8.ofNat (v.withSign (v.usec / 10000) % 256).toNat, ?_, ?_⟩
  · rw [tableAt, ← Nat.add_zero 3, ← List.getElem?_drop, hdrop]
    rfl
  · rw [UInt8.toNat_ofNat', withSign]
    cases v.neg <;> by_cases h : v.usec = 0 <;> simp [h] <;> omega

/-- The packed time of an encoded value. -/
theorem my_time_packed_from_binary_encode (hdec : dec ≤ 6) (rest : List UInt8) :
    my_time_packed_from_binary (v.encode ++ rest) dec = .ok v.unpacked := by
  have husec := v.usec_lt
  have hhms := v.hms_lt
  have hdiv := v.packed_div
  have hscale := v.div_mul_unit
  unfold my_time_packed_from_binary
  rw [if_neg (by rw [DATETIME_MAX_DECIMALS]; omega)]
  -- no fraction, one byte of it, two bytes, and the six bytes read as one number
  obtain rfl | hone | htwo | hthree :
    dec = 0 ∨ (dec = 1 ∨ dec = 2) ∨ (dec = 3 ∨ dec = 4) ∨ (dec = 5 ∨ dec = 6) := by omega
  · obtain ⟨n, hread, hwhole⟩ := v.read_whole (by omega) rest
    have hzero := v.eq_zero_of_dec_zero
    simp only [hread, Exec.ok_bind, Exec.pure_eq, hwhole, hdiv, unpacked, hzero]
    simp [withSign]
  · obtain ⟨n, hread, hwhole⟩ := v.read_whole (by omega) rest
    obtain ⟨b, hget, hbyte⟩ := v.read_hundredths hone rest
    have hunit : fractionUnit dec = 10000 := by obtain rfl | rfl := hone <;> rfl
    rw [hunit] at hscale
    -- a negative value is stored as a complement, which the reader takes back by hand
    have hfix : (if v.packed / 2 ^ 24 < 0 ∧ (b.toNat : Int) ≠ 0
          then (v.packed / 2 ^ 24 + 1, ((b.toNat : Int) - 0x100) * 10000)
          else (v.packed / 2 ^ 24, (b.toNat : Int) * 10000)) =
        (v.withSign v.hms, v.withSign v.usec) := by
      by_cases hneg : v.neg = true ∧ v.usec ≠ 0
      · rw [if_pos hneg] at hdiv hbyte
        rw [hdiv, if_pos (by omega), withSign, withSign, if_pos hneg.1, if_pos hneg.1,
          Prod.mk.injEq]
        omega
      · rw [if_neg hneg] at hdiv hbyte
        have hpos : v.neg = true → v.usec = 0 := fun h => not_not.mp fun hne => hneg ⟨h, hne⟩
        rw [hdiv, withSign, withSign]
        by_cases h : v.neg = true
        · rw [if_pos h, if_pos h, if_neg (by have := hpos h; omega), Prod.mk.injEq]
          have := hpos h
          omega
        · rw [if_neg h, if_neg h, if_neg (by omega), Prod.mk.injEq]
          omega
    have hunpacked : v.unpacked = (v.withSign v.hms, v.withSign v.usec) := by
      rw [unpacked, if_neg (by omega), if_neg (by omega)]
    rw [hunpacked, ← hfix]
    obtain rfl | rfl := hone <;>
      simp only [hread, hget, Exec.ok_bind, Exec.pure_eq, hwhole] <;> split <;> rfl
  · obtain ⟨n, hread, -⟩ := v.read_whole (by omega) rest
    have hread' : mi_uint2korr ((v.encode ++ rest).drop 3) = .ok
        (v.withSign (v.usec / fractionUnit dec) % 256 ^ fractionSize dec).toNat := by
      have hsize : fractionSize dec = 2 := by obtain rfl | rfl := htwo <;> rfl
      rw [v.drop_whole (by omega), hsize]
      exact mi_ukorr_bytes (by omega) _
    rw [unpacked, if_pos htwo]
    obtain rfl | rfl := htwo <;> simp only [hread, hread', Exec.ok_bind, Exec.pure_eq]
  · have hrange : -2 ^ 47 ≤ v.packed ∧ v.packed < 2 ^ 47 := by
      rw [packed, withSign]
      cases v.neg <;> simp <;> omega
    have hread : mi_uint6korr (v.encode ++ rest) = .ok (v.packed + 0x800000000000).toNat := by
      rw [encode, if_neg (by omega)]
      exact mi_ukorr_bytes (by omega) _
    have htm : ((v.packed + 0x800000000000).toNat : Int) - TIMEF_OFS = v.packed := by
      rw [TIMEF_OFS]
      omega
    rw [unpacked, if_neg (by omega), if_pos hthree]
    obtain rfl | rfl := hthree <;> simp only [hread, Exec.ok_bind, Exec.pure_eq, htm]

/-- What is stored for a packed time. -/
def timeFields (intpart frac : Int) : Time.Fields where
  hour := if intpart < 0 then -(intpart.natAbs / 2 ^ 12 : Nat) else (intpart.natAbs / 2 ^ 12 : Nat)
  min := intpart.natAbs / 2 ^ 6 % 2 ^ 6
  sec := intpart.natAbs % 2 ^ 6
  nsec := (frac % 2 ^ 30).toNat

theorem set_nsec_mod (t : Time) (hour : Int) (mi second nsec : Nat) :
    t.set hour mi second (nsec % 2 ^ 30) = t.set hour mi second nsec := by
  have hnsec : BitVec.ofNat 30 (nsec % 2 ^ 30) = BitVec.ofNat 30 nsec := by
    apply BitVec.eq_of_toNat_eq
    rw [BitVec.toNat_ofNat, BitVec.toNat_ofNat, Nat.mod_mod]
  rw [Time.set, Time.set, hnsec]

theorem unpacked_lt : v.unpacked.1.natAbs < 2 ^ 22 := by
  have hhms := v.hms_lt
  have := v.hour_le
  have := v.min_lt
  have := v.sec_lt
  have hhour : v.hms + 1 < 2 ^ 22 := by
    rw [hms]
    omega
  have hdiv := v.packed_div
  rw [unpacked]
  split
  · simp
  split
  · rw [hdiv, withSign]
    cases v.neg <;> by_cases h : v.usec = 0 <;> simp [h] <;> omega
  · rw [withSign]
    cases v.neg <;> simp <;> omega

theorem parse_TIME2_stores (hdec : dec ≤ 6) {colMeta : ColumnMeta}
    (hdecimals : colMeta.m_decimals = dec) (junk : BitVec 64) (newOrOld : Bool)
    (rest : List UInt8) :
    ∃ t : Time, t.fields = timeFields v.unpacked.1 v.unpacked.2 ∧
      StoresWord t.time colMeta newOrOld rest
        (parse_MYSQL_TYPE_TIME2 junk colMeta (v.encode ++ rest) newOrOld) := by
  have hread := v.my_time_packed_from_binary_encode hdec rest
  have hlt := v.unpacked_lt
  have hlength : my_time_binary_length dec = .ok (3 + (dec + 1) / 2) := binary_length_eq hdec 3
  have hadvance : advance (3 + (dec + 1) / 2) (v.encode ++ rest) = .ok rest := by
    rw [advance, if_pos (by rw [List.length_append, v.length_encode hdec]; omega),
      List.drop_left' (v.length_encode hdec)]
  have hinRange : (timeFields v.unpacked.1 v.unpacked.2).InRange := by
    constructor
    · simp only [timeFields]
      split <;> omega
    · simp only [timeFields]
      omega
    · simp only [timeFields]
      omega
    · simp only [timeFields]
      omega
  refine ⟨_, Time.fields_set ⟨junk⟩ _ hinRange, ?_⟩
  have hhour : v.unpacked.1.natAbs / 2 ^ 12 % 2 ^ 10 = v.unpacked.1.natAbs / 2 ^ 12 :=
    Nat.mod_eq_of_lt (by omega)
  have hnsec : (v.unpacked.2 % 2 ^ 30).toNat = (v.unpacked.2 % 2 ^ 32).toNat % 2 ^ 30 := by omega
  rw [StoresWord, parse_MYSQL_TYPE_TIME2, hdecimals, hread]
  simp only [Exec.ok_bind, hlength, hadvance, hhour, timeFields, hnsec, set_nsec_mod,
    decide_eq_true_eq]
  rfl

/-- The time is the value.  The unit of `nsec` is in parts of a microsecond: its name and `toString`
say 1000. -/
def Is (unit : Nat) (t : Time) : Prop :=
  t.fields = ⟨v.withSign v.hour, v.min, v.sec, v.usec * unit⟩ ∧ (t.hour < 0 ↔ v.neg = true)

/-- A negative value has an hour and no fraction, there is no fraction in nanoseconds, and with
three or four digits there is only 0. -/
def Kept (unit : Nat) : Prop :=
  (v.neg = true → 0 < v.hour ∧ v.usec = 0) ∧ (unit = 1000 → v.usec = 0) ∧
    (dec = 3 ∨ dec = 4 → v.hour = 0 ∧ v.min = 0 ∧ v.sec = 0 ∧ v.usec = 0)

theorem hms_fields : v.hms / 2 ^ 12 = v.hour ∧ v.hms / 2 ^ 6 % 2 ^ 6 = v.min ∧
    v.hms % 2 ^ 6 = v.sec := by
  have := v.min_lt
  have := v.sec_lt
  rw [hms]
  omega

theorem unpacked_of_whole (hdec : ¬ (dec = 3 ∨ dec = 4)) (h : v.neg = true → v.usec = 0) :
    v.unpacked = (v.withSign v.hms, (v.usec : Int)) := by
  have husec := v.usec_lt
  have hdiv := v.packed_div
  rw [if_neg fun hfrac => hfrac.2 (h hfrac.1)] at hdiv
  rw [unpacked, if_neg hdec, hdiv]
  split
  · rw [Prod.mk.injEq]
    refine ⟨rfl, ?_⟩
    rw [packed, withSign]
    by_cases hneg : v.neg = true
    · have := h hneg
      rw [if_pos hneg]
      omega
    · rw [if_neg hneg]
      omega
  · by_cases hneg : v.neg = true
    · rw [h hneg, withSign, withSign, if_pos hneg, if_pos hneg]
      rfl
    · rw [withSign, withSign, if_neg hneg, if_neg hneg]

theorem unpacked_of_fraction (hdec : ¬ (dec = 3 ∨ dec = 4)) (hneg : v.neg = true)
    (husec : v.usec ≠ 0) : v.unpacked.2 = -(v.usec : Int) ∨ v.unpacked.2 = 2 ^ 24 - v.usec := by
  have := v.usec_lt
  rw [unpacked, if_neg hdec]
  split
  · right
    rw [packed, withSign, if_pos hneg]
    omega
  · left
    rw [withSign, withSign, if_pos hneg, if_pos hneg]

theorem complement_ne {usec unit : Nat} {x : Int} (hunit : unit = 1 ∨ unit = 1000)
    (husec : usec < 10 ^ 6) (hne : usec ≠ 0) (hx : x = -(usec : Int) ∨ x = 2 ^ 24 - usec) :
    (x % 2 ^ 30).toNat ≠ usec * unit := by
  have hmod : x % 2 ^ 30 = 2 ^ 30 - usec ∨ x % 2 ^ 30 = 2 ^ 24 - usec := by
    obtain rfl | rfl := hx
    · left
      omega
    · right
      exact Int.emod_eq_of_lt (by omega) (by omega)
  obtain hmod | hmod := hmod
  · rw [hmod]
    obtain rfl | rfl := hunit <;> omega
  · rw [hmod]
    obtain rfl | rfl := hunit <;> omega

theorem timeFields_withSign :
    timeFields (v.withSign v.hms) v.usec = ⟨v.withSign v.hour, v.min, v.sec, v.usec⟩ := by
  have husec := v.usec_lt
  obtain ⟨hhour, hmin, hsec⟩ := v.hms_fields
  have habs : (v.withSign v.hms).natAbs = v.hms := by
    rw [withSign]
    split <;> omega
  have hsign : (if v.withSign v.hms < 0 then -(v.hour : Int) else v.hour) = v.withSign v.hour := by
    rw [withSign, withSign]
    by_cases hneg : v.neg = true
    · rw [if_pos hneg, if_pos hneg]
      split <;> omega
    · rw [if_neg hneg, if_neg hneg, if_neg (by omega)]
  rw [timeFields, habs, hhour, hmin, hsec, hsign, Time.Fields.mk.injEq]
  omega

theorem is_iff_kept {unit : Nat} (hunit : unit = 1 ∨ unit = 1000) {t : Time}
    (ht : t.fields = timeFields v.unpacked.1 v.unpacked.2) : v.Is unit t ↔ v.Kept unit := by
  have husec := v.usec_lt
  have hhour : t.hour = (timeFields v.unpacked.1 v.unpacked.2).hour := by rw [← ht]; rfl
  rw [Is, Kept, ht, hhour]
  clear ht hhour
  by_cases hdec : dec = 3 ∨ dec = 4
  · -- nothing of the value is stored
    have hne := v.neg_ne_zero
    have hzero : timeFields v.unpacked.1 v.unpacked.2 = ⟨0, 0, 0, 0⟩ := by
      rw [unpacked, if_pos hdec]
      rfl
    simp only [hzero, Time.Fields.mk.injEq, withSign]
    by_cases hneg : v.neg = true
    · have := hne hneg
      simp [hneg]
      obtain rfl | rfl := hunit <;> omega
    · simp [hneg]
      obtain rfl | rfl := hunit <;> omega
  by_cases hfrac : v.neg = true ∧ v.usec ≠ 0
  · have h := v.unpacked_of_fraction hdec hfrac.1 hfrac.2
    constructor
    · rintro ⟨hall, -⟩
      exact absurd (Time.Fields.mk.inj hall).2.2.2 (complement_ne hunit husec hfrac.2 h)
    · rintro ⟨hkept, -⟩
      exact absurd (hkept hfrac.1).2 hfrac.2
  · have hwhole : v.neg = true → v.usec = 0 := fun h => not_not.mp fun hne => hfrac ⟨h, hne⟩
    have hfields : timeFields v.unpacked.1 v.unpacked.2 =
        ⟨v.withSign v.hour, v.min, v.sec, v.usec⟩ := by
      rw [v.unpacked_of_whole hdec hwhole]
      exact v.timeFields_withSign
    simp only [hfields, Time.Fields.mk.injEq, withSign]
    by_cases hneg : v.neg = true
    · simp [hneg, hwhole hneg]
      omega
    · simp [hneg]
      obtain rfl | rfl := hunit <;> omega

theorem eq_of_is {unit : Nat} (hunit : 0 < unit) {w : TimeColumn dec} {t : Time} (hv : v.Is unit t)
    (hw : w.Is unit t) : v = w := by
  obtain ⟨hfields, hneg⟩ := hv
  obtain ⟨hfields', hneg'⟩ := hw
  have hsign : v.neg = w.neg := Bool.eq_iff_iff.mpr (hneg.symm.trans hneg')
  obtain ⟨hhour, hmin, hsec, hnsec⟩ := Time.Fields.mk.inj (hfields.symm.trans hfields')
  have husec : v.usec = w.usec := Nat.eq_of_mul_eq_mul_right hunit hnsec
  have hhour' : v.hour = w.hour := by
    rw [withSign, withSign, hsign] at hhour
    split at hhour <;> omega
  exact TimeColumn.ext husec hsign hhour' hmin hsec

end TimeColumn

theorem StoresWord.eq {word word' : BitVec 64} {colMeta : ColumnMeta} {newOrOld : Bool}
    {rest : List UInt8} {r : Exec (Option (SetCall × List UInt8))}
    (h : StoresWord word colMeta newOrOld rest r) (h' : StoresWord word' colMeta newOrOld rest r) :
    word = word' := by
  have hcall := h.symm.trans h'
  have hbytes : LE.bytes 8 word.toNat = LE.bytes 8 word'.toNat := by
    cases newOrOld <;> simpa [setFixed] using hcall
  exact BitVec.eq_of_toNat_eq (LE.bytes_inj word.isLt word'.isLt hbytes)

/-- A value of `TIME` is stored with its sign and its fields if and only if it is 0 with three or
four digits, has no fraction if `nsec` is in nanoseconds, and has an hour and no fraction if it is
negative.  Such values are stored differently, and only the bytes of the value are read. -/
theorem parse_TIME2_exact_iff {dec : Nat} (hdec : dec ≤ 6) (v : TimeColumn dec)
    {colMeta : ColumnMeta} (hdecimals : colMeta.m_decimals = dec) (junk : BitVec 64)
    (newOrOld : Bool) (rest : List UInt8) {unit : Nat} (hunit : unit = 1 ∨ unit = 1000) :
    ((∃ t : Time, v.Is unit t ∧ StoresWord t.time colMeta newOrOld rest
        (parse_MYSQL_TYPE_TIME2 junk colMeta (v.encode ++ rest) newOrOld)) ↔ v.Kept unit) ∧
      v.encode.length = 3 + (dec + 1) / 2 ∧
      ∀ w : TimeColumn dec, v.Kept unit → w.Kept unit → ∀ word,
        StoresWord word colMeta newOrOld rest
          (parse_MYSQL_TYPE_TIME2 junk colMeta (v.encode ++ rest) newOrOld) →
        StoresWord word colMeta newOrOld rest
          (parse_MYSQL_TYPE_TIME2 junk colMeta (w.encode ++ rest) newOrOld) → v = w := by
  obtain ⟨t, ht, hstores⟩ := v.parse_TIME2_stores hdec hdecimals junk newOrOld rest
  have hkept := v.is_iff_kept hunit ht
  refine ⟨?_, v.length_encode hdec, ?_⟩
  · constructor
    · rintro ⟨t', ht', hstores'⟩
      obtain ⟨time⟩ := t
      obtain ⟨time'⟩ := t'
      obtain rfl : time = time' := hstores.eq hstores'
      exact hkept.mp ht'
    · intro h
      exact ⟨t, hkept.mpr h, hstores⟩
  · intro w hv hw word hword hword'
    obtain ⟨t', ht', hstores'⟩ := w.parse_TIME2_stores hdec hdecimals junk newOrOld rest
    have htime : t.time = t'.time := (hstores.eq hword).trans (hword'.eq hstores')
    obtain ⟨time⟩ := t
    obtain ⟨time'⟩ := t'
    obtain rfl : time = time' := htime
    exact v.eq_of_is (by omega) (hkept.mpr hv) ((w.is_iff_kept hunit ht').mpr hw)

/-- -12:34:56 of a `TIME(6)`. -/
theorem parse_TIME2_exact_twelve :
    let v : TimeColumn 6 := ⟨⟨0, by decide, by decide⟩, true, 12, 34, 56, by decide, by decide,
      by decide, by decide, by decide⟩
    let colMeta : ColumnMeta := { m_columnType := .T_TIME, m_columnName := "c", m_decimals := 6 }
    ((∃ t : Time, v.Is 1000 t ∧ StoresWord t.time colMeta true []
        (parse_MYSQL_TYPE_TIME2 0 colMeta (v.encode ++ []) true)) ↔ v.Kept 1000) ∧
      v.encode.length = 3 + (6 + 1) / 2 ∧
      ∀ w : TimeColumn 6, v.Kept 1000 → w.Kept 1000 → ∀ word,
        StoresWord word colMeta true [] (parse_MYSQL_TYPE_TIME2 0 colMeta (v.encode ++ []) true) →
        StoresWord word colMeta true [] (parse_MYSQL_TYPE_TIME2 0 colMeta (w.encode ++ []) true) →
        v = w :=
  parse_TIME2_exact_iff (Nat.le_refl 6) _ rfl 0 true [] (.inr rfl)

/-- 12:34:56.789 of a `TIME(3)`, whatever the unit. -/
theorem parse_TIME2_loses :
    let v : TimeColumn 3 := ⟨⟨789000, by decide, by decide⟩, false, 12, 34, 56, by decide,
      by decide, by decide, by decide, by decide⟩
    let colMeta : ColumnMeta := { m_columnType := .T_TIME, m_columnName := "c", m_decimals := 3 }
    ∀ unit, ¬ ∃ t : Time, v.Is unit t ∧ StoresWord t.time colMeta true []
      (parse_MYSQL_TYPE_TIME2 0 colMeta (v.encode ++ []) true) := by
  intro v colMeta unit h
  obtain ⟨t', ht', hstores'⟩ := h
  have hdecimals : colMeta.m_decimals = 3 := rfl
  obtain ⟨t, ht, hstores⟩ := v.parse_TIME2_stores (by decide) hdecimals 0 true []
  obtain ⟨time⟩ := t
  obtain ⟨time'⟩ := t'
  obtain rfl : time = time' := hstores.eq hstores'
  have hnone : v.unpacked = (0, 0) := if_pos (.inl rfl)
  have hhour : (0 : Int) = v.withSign v.hour := by
    rw [hnone] at ht
    exact congrArg Time.Fields.hour (ht.symm.trans ht'.1)
  exact absurd hhour (by decide)

end DBStream.Native.DATA_SOURCE
