import DBStream.Spec.ItoaCorrect
import DBStream.Spec.TimeOrder

/-!
# The text of times

What `toString` writes for each of the four types: the text is as in SQL, but the hour of a
negative `Time` is written as a `uint32_t`, and the length of a `timestamp` with a fraction does
not count the byte 0.
-/

namespace DBStream.Native.Meta

open DATA_SOURCE DATA_SOURCE.JsonColumn

/-! ## Texts -/

def fractionText (nonzero : Bool) (usec : Nat) : List UInt8 :=
  if nonzero then 0x2e :: lastDigits 6 usec else []

def dateText (year : Int) (month day : Nat) : List UInt8 :=
  signedDecimal year ++ [0x2d] ++ lastDigits 2 month ++ [0x2d] ++ lastDigits 2 day

def timeText (hour : List UInt8) (min sec : Nat) : List UInt8 :=
  hour ++ [0x3a] ++ lastDigits 2 min ++ [0x3a] ++ lastDigits 2 sec

def Timestamp.text (t : Timestamp) : List UInt8 :=
  decimal t.seconds ++ fractionText (decide (t.nanoSeconds ≠ 0)) (t.nanoSeconds / 1000)

def DateTime.text (t : DateTime) : List UInt8 :=
  timeText (dateText t.year t.month t.day ++ [0x20] ++ lastDigits 2 t.hour) t.min t.sec ++
    fractionText (decide (t.usec ≠ 0)) t.usec

def Time.text (t : Time) : List UInt8 :=
  timeText (signedDecimal t.hour) t.min t.sec ++ fractionText (decide (t.nsec ≠ 0)) (t.nsec / 1000)

def Date.text (t : Date) : List UInt8 := dateText t.year t.month t.day

/-- The text is written with a byte 0 behind it, and the length is that of both. -/
def Prints (text : List UInt8) (r : Option (Nat × RawMemory)) : Prop :=
  ∃ m, r = some (text.length + 1, m) ∧ JsonColumn.Holds 0 (text ++ [0]) m

section
variable {u text : List UInt8} {m : RawMemory} {n p usec : Nat}
  {k : RawMemory → Option (Nat × RawMemory)}

/-! ## One store after the other -/

theorem holds_put (d : List UInt8) (h : JsonColumn.Holds 0 u m) (hp : p = u.length) :
    JsonColumn.Holds 0 (u ++ d) (m.write p d) := by
  subst hp
  simpa using h.write d

private theorem numToStrMap_eq :
    ∀ n < 63, (numToStrMap[n]?).map (LE.bytes 2) = some (lastDigits 2 n) := by
  decide +kernel

theorem Prints.putNum (h : JsonColumn.Holds 0 u m) (hp : p = u.length) (hn : n < 63)
    (hk : ∀ m', JsonColumn.Holds 0 (u ++ lastDigits 2 n) m' → Prints text (k m')) :
    Prints text (putNum n p m >>= k) := by
  obtain ⟨x, hx, hbytes⟩ := Option.map_eq_some_iff.mp (numToStrMap_eq n hn)
  rw [Meta.putNum, hx]
  refine hk _ ?_
  rw [RawMemory.writeWord, hbytes]
  exact holds_put _ h hp

theorem putFraction_holds (h : JsonColumn.Holds 0 u m) (hp : p = u.length) (husec : usec < 10 ^ 6) :
    JsonColumn.Holds 0 (u ++ lastDigits 6 usec ++ [0]) (putFraction usec p m) := by
  obtain ⟨hlength, heq⟩ := lastDigits_eq_decimal (w := 6) (by omega) husec
  have htemplate : LE.bytes 8 3458817497345568816 = List.replicate 6 0x30 ++ [0, 0x30] := by decide
  have hzeros : JsonColumn.Holds 0 (u ++ List.replicate (6 - (decimal usec).length) 0x30)
      (m.writeWord 8 p 3458817497345568816) := by
    rw [RawMemory.writeWord, htemplate]
    refine (holds_put _ h hp).shorten ((List.prefix_append_right_inj u).mpr ?_)
    rw [show 6 = 6 - (decimal usec).length + (decimal usec).length by omega, List.replicate_add,
      Nat.add_sub_cancel, List.append_assoc]
    exact List.prefix_append _ _
  have hsecLen : (((decimal usec ++ [0]).length : Nat) : Int).toNat = (decimal usec ++ [0]).length := rfl
  simp only [putFraction, u32toa_sse2_eq (show usec < 2 ^ 32 by omega), put, hsecLen,
    RawMemory.read_write_self]
  rw [heq, ← List.append_assoc, List.append_assoc _ (decimal usec)]
  refine holds_put _ hzeros ?_
  simp only [List.length_append, List.length_replicate, List.length_singleton]
  omega

theorem Prints.fraction {c : Prop} [Decidable c] (h : JsonColumn.Holds 0 u m) (hp : p = u.length)
    (husec : usec < 10 ^ 6) :
    Prints (u ++ fractionText (decide c) usec)
      (if c then some (p + 1 + 6 + 1, putFraction usec (p + 1) (m.write p [0x2e]))
        else some (p + 1, m.write p [0])) := by
  subst hp
  by_cases hc : c
  · have hdot := holds_put [0x2e] h rfl
    have hholds := putFraction_holds hdot (p := u.length + 1) (by simp) husec
    rw [if_pos hc, decide_eq_true hc]
    refine ⟨putFraction usec (u.length + 1) (m.write u.length [0x2e]), ?_, ?_⟩
    · simp [fractionText, Nat.add_assoc]
    · simpa [fractionText] using hholds
  · rw [if_neg hc, decide_eq_false hc]
    refine ⟨m.write u.length [0], ?_, ?_⟩
    · simp [fractionText]
    · simpa [fractionText] using holds_put [0] h rfl

/-! ## `dateTime` and `Date` -/

private theorem holds_separator {r : Int × RawMemory} (h : AppendsText 0 u text r) (d : UInt8) :
    r.1.toNat = text.length + 1 ∧
      JsonColumn.Holds 0 (u ++ text ++ [d]) (r.2.write (u.length + r.1.toNat - 1) [d]) := by
  obtain ⟨hlength, hholds⟩ := h
  have hlen : r.1.toNat = text.length + 1 := by rw [hlength]; rfl
  refine ⟨hlen, holds_put _ (hholds.shorten (List.prefix_append _ _)) ?_⟩
  rw [hlen, List.length_append]
  rfl

theorem holds_separated {r : Int × RawMemory} (h : AppendsText 0 [] text r) (d : UInt8) :
    r.1.toNat = text.length + 1 ∧
      JsonColumn.Holds 0 (text ++ [d]) (r.2.write (r.1.toNat - 1) [d]) := by
  simpa using holds_separator h d

theorem Prints.dateFields {year : Int} {month day : Nat}
    (h : JsonColumn.Holds 0 (signedDecimal year ++ [0x2d]) m) (hp : p = (signedDecimal year).length + 1)
    (hmonth : month < 63) (hday : day < 63)
    (hk : ∀ m', JsonColumn.Holds 0 (dateText year month day) m' → Prints text (k m')) :
    Prints text (Meta.putNum month p m >>= fun m =>
      Meta.putNum day (p + 3) (m.write (p + 2) [0x2d]) >>= k) := by
  refine .putNum h (by simp [hp]) hmonth fun m₁ h₁ => ?_
  have h₂ := holds_put [0x2d] h₁ (p := p + 2) (by simp [hp])
  exact .putNum h₂ (by simp [hp]) hday hk

theorem Prints.timeFields {hour : List UInt8} {min sec : Nat} (h : JsonColumn.Holds 0 (hour ++ [0x3a]) m)
    (hp : p = hour.length + 1) (hmin : min < 63) (hsec : sec < 63)
    (hk : ∀ m', JsonColumn.Holds 0 (timeText hour min sec) m' → Prints text (k m')) :
    Prints text (Meta.putNum min p m >>= fun m =>
      Meta.putNum sec (p + 3) (m.write (p + 2) [0x3a]) >>= k) := by
  refine .putNum h (by simp [hp]) hmin fun m₁ h₁ => ?_
  have h₂ := holds_put [0x3a] h₁ (p := p + 2) (by simp [hp])
  exact .putNum h₂ (by simp [hp]) hsec hk

theorem length_dateText (year : Int) (month day : Nat) :
    (dateText year month day).length = (signedDecimal year).length + 6 := by
  simp [dateText]

theorem length_timeText (hour : List UInt8) (min sec : Nat) :
    (timeText hour min sec).length = hour.length + 6 := by
  simp [timeText]

theorem toNat_extractLsb'_lt {n : Nat} (x : BitVec n) (s : Nat) {l k : Nat} (h : 2 ^ l ≤ k) :
    (x.extractLsb' s l).toNat < k := (BitVec.isLt _).trans_le h

theorem toInt_extractLsb'_range {n : Nat} (x : BitVec n) (s : Nat) {l : Nat} (h : l ≤ 31) :
    -2 ^ 31 ≤ (x.extractLsb' s l).toInt ∧ (x.extractLsb' s l).toInt < 2 ^ 31 := by
  have hlow := BitVec.le_toInt (x.extractLsb' s l)
  have hhigh := BitVec.toInt_lt (x := x.extractLsb' s l)
  have hpow : (2 : Int) ^ (l - 1) ≤ 2 ^ 31 := by
    exact_mod_cast Nat.pow_le_pow_right (by omega) (show l - 1 ≤ 31 by omega)
  omega

theorem year_holds {year : Int} (hyear : -2 ^ 31 ≤ year ∧ year < 2 ^ 31) (m : RawMemory) :
    (i32toa_sse2 year 0 m).1.toNat = (signedDecimal year).length + 1 ∧
      JsonColumn.Holds 0 (signedDecimal year ++ [0x2d]) ((i32toa_sse2 year 0 m).2.write
        ((i32toa_sse2 year 0 m).1.toNat - 1) [0x2d]) :=
  holds_separated (i32toa_sse2_appendsText (u := []) hyear.1 hyear.2 .nil) 0x2d

private theorem date_prints {year : Int} {month day : Nat} (hyear : -2 ^ 31 ≤ year ∧ year < 2 ^ 31)
    (hmonth : month < 63) (hday : day < 63) (m : RawMemory) {p : Nat}
    (hp : p = (i32toa_sse2 year 0 m).1.toNat) :
    Prints (dateText year month day)
      (Meta.putNum month p ((i32toa_sse2 year 0 m).2.write (p - 1) [0x2d]) >>= fun m =>
        Meta.putNum day (p + 3) (m.write (p + 2) [0x2d]) >>= fun m =>
          some (p + 6, m.write (p + 5) [0])) := by
  obtain ⟨hlength, hholds⟩ := year_holds hyear m
  rw [← hp] at hlength hholds
  refine .dateFields hholds hlength hmonth hday fun m₁ h₁ => ⟨m₁.write (p + 5) [0], ?_, ?_⟩
  · rw [length_dateText, hlength]
  · exact holds_put [0] h₁ (by rw [length_dateText, hlength])

theorem Date.toString_prints (t : Date) (m : RawMemory) : Prints t.text (t.toString m) :=
  date_prints (toInt_extractLsb'_range _ _ (by omega)) (toNat_extractLsb'_lt _ _ (by omega))
    (toNat_extractLsb'_lt _ _ (by omega)) m rfl

theorem DateTime.toString_prints (t : DateTime) (hmin : t.min < 63) (hsec : t.sec < 63)
    (husec : t.usec < 10 ^ 6) (m : RawMemory) : Prints t.text (t.toString m) := by
  have hyear : -2 ^ 31 ≤ t.year ∧ t.year < 2 ^ 31 := toInt_extractLsb'_range _ _ (by omega)
  have hmonth : t.month < 63 := toNat_extractLsb'_lt _ _ (by omega)
  have hday : t.day < 63 := toNat_extractLsb'_lt _ _ (by omega)
  have hhour : t.hour < 63 := toNat_extractLsb'_lt _ _ (by omega)
  obtain ⟨hlength, hholds⟩ := year_holds hyear m
  simp only [toString]
  rw [hlength] at hholds ⊢
  refine .dateFields hholds rfl hmonth hday fun m₁ h₁ => ?_
  have h₂ := holds_put [0x20] h₁ rfl
  rw [length_dateText] at h₂
  refine .putNum h₂ (by simp [length_dateText]) hhour fun m₃ h₃ => ?_
  have h₄ := holds_put [0x3a] h₃ (p := (signedDecimal t.year).length + 1 + 8)
    (by simp [length_dateText])
  refine .timeFields h₄ (by simp [length_dateText]) hmin hsec fun m₅ h₅ => ?_
  exact .fraction h₅ (by simp [length_timeText, length_dateText]) husec

/-! ## `Time` -/

theorem time_prints {hour : List UInt8} {min sec usec : Nat} {c : Prop} [Decidable c]
    (h : JsonColumn.Holds 0 (hour ++ [0x3a]) m) (hp : p = hour.length + 1) (hmin : min < 63)
    (hsec : sec < 63) (husec : usec < 10 ^ 6) :
    Prints (timeText hour min sec ++ fractionText (decide c) usec)
      (Meta.putNum min p m >>= fun m =>
        Meta.putNum sec (p + 3) (m.write (p + 2) [0x3a]) >>= fun m =>
          if c then some (p + 6 + 6 + 1, putFraction usec (p + 6) (m.write (p + 5) [0x2e]))
          else some (p + 6, m.write (p + 5) [0])) :=
  .timeFields h hp hmin hsec fun _ h₁ => .fraction h₁ (by rw [length_timeText, hp]) husec

theorem Time.toString_prints (t : Time) (hmin : t.min < 63) (hsec : t.sec < 63)
    (hnsec : t.nsec < 10 ^ 9) (m : RawMemory) :
    Prints (timeText (decimal (t.hour % 2 ^ 32).toNat) t.min t.sec ++
      fractionText (decide (t.nsec ≠ 0)) (t.nsec / 1000)) (t.toString m) := by
  obtain ⟨hlength, hholds⟩ := holds_separated (u32toa_sse2_appendsText
    (show (t.hour % 2 ^ 32).toNat < 2 ^ 32 by omega)
    (JsonColumn.Holds.nil : JsonColumn.Holds 0 [] m)) 0x3a
  exact time_prints hholds hlength hmin hsec (by omega)

/-! ## `timestamp` -/

/-- The text is written, but its length is that of the text without the byte 0 if there is a
    fraction. -/
theorem Timestamp.toString_eq (t : Timestamp) (hnano : t.nanoSeconds < 10 ^ 9) (m : RawMemory) :
    (t.toString m).1 = (if t.nanoSeconds ≠ 0 then t.text.length else t.text.length + 1) ∧
      JsonColumn.Holds 0 (t.text ++ [0]) (t.toString m).2 := by
  have hseconds : t.seconds < 2 ^ 64 := toNat_extractLsb'_lt _ _ (by omega)
  have hto := u64toa_sse2_appendsText hseconds (JsonColumn.Holds.nil : JsonColumn.Holds 0 [] m)
  obtain ⟨hlength, hholds⟩ := holds_separated hto 0x2e
  simp only [toString, text, fractionText]
  by_cases hnano' : t.nanoSeconds ≠ 0
  · rw [if_pos hnano', if_pos hnano', decide_eq_true hnano', if_pos rfl]
    have hfraction := putFraction_holds hholds (p := (u64toa_sse2 t.seconds 0 m).1.toNat)
      (hlength.trans (by simp)) (show t.nanoSeconds / 1000 < 10 ^ 6 by omega)
    refine ⟨?_, by simpa using hfraction⟩
    simp only [List.length_append, List.length_cons, length_lastDigits]
    rw [show (u64toa_sse2 t.seconds 0 m).1.toNat = _ from hlength]
  · rw [if_neg hnano', if_neg hnano', decide_eq_false hnano', if_neg (by simp), List.append_nil]
    exact ⟨hlength, hto.2⟩

end

/-! ## All types -/

/-- A value of one of the types. -/
inductive TimeValue where
  | timestamp (t : Timestamp)
  | dateTime (t : DateTime)
  | time (t : Time)
  | date (t : Date)

namespace TimeValue

def toString : TimeValue → RawMemory → Option (Nat × RawMemory)
  | timestamp t, m => some (t.toString m)
  | dateTime t, m => t.toString m
  | time t, m => t.toString m
  | date t, m => t.toString m

def text : TimeValue → List UInt8
  | timestamp t => t.text
  | dateTime t => t.text
  | time t => t.text
  | date t => t.text

/-- Minutes and seconds have an entry in `numToStrMap`, and a fraction is less than a second. -/
def InRange : TimeValue → Prop
  | timestamp t => t.nanoSeconds < 10 ^ 9
  | dateTime t => t.min < 63 ∧ t.sec < 63 ∧ t.usec < 10 ^ 6
  | time t => t.min < 63 ∧ t.sec < 63 ∧ t.nsec < 10 ^ 9
  | date _ => True

/-- The fields, with fractions in microseconds. -/
def micro : TimeValue → List Int
  | timestamp t => [t.seconds, (t.nanoSeconds / 1000 : Nat)]
  | dateTime t => t.fields.units
  | time t => [t.hour, t.min, t.sec, (t.nsec / 1000 : Nat)]
  | date t => t.fields.units

/-- What `toString` does right: all but a `timestamp` with a fraction and a negative `Time`. -/
def Met : TimeValue → Prop
  | timestamp t => t.nanoSeconds = 0
  | time t => 0 ≤ t.hour
  | _ => True

/-- The text that is written, whatever the length says. -/
def written : TimeValue → List UInt8
  | time t => timeText (decimal (t.hour % 2 ^ 32).toNat) t.min t.sec ++
      fractionText (decide (t.nsec ≠ 0)) (t.nsec / 1000)
  | v => v.text

variable {v w : TimeValue} {m : RawMemory}

theorem toString_writes (h : v.InRange) (m : RawMemory) :
    ∃ len m', v.toString m = some (len, m') ∧ JsonColumn.Holds 0 (v.written ++ [0]) m' := by
  cases v with
  | timestamp t => exact ⟨_, _, rfl, (t.toString_eq h m).2⟩
  | dateTime t =>
    obtain ⟨m', hm', hholds⟩ := t.toString_prints h.1 h.2.1 h.2.2 m
    exact ⟨_, m', hm', hholds⟩
  | time t =>
    obtain ⟨m', hm', hholds⟩ := t.toString_prints h.1 h.2.1 h.2.2 m
    exact ⟨_, m', hm', hholds⟩
  | date t =>
    obtain ⟨m', hm', hholds⟩ := t.toString_prints m
    exact ⟨_, m', hm', hholds⟩

theorem holds_head {b : UInt8} {u : List UInt8} (h : JsonColumn.Holds 0 (b :: u) m) : m 0 = b := by
  rw [JsonColumn.Holds, List.length_cons, RawMemory.read_succ] at h
  exact (List.cons.inj h).1

theorem not_prints_negative {t : Time} (h : (time t).InRange) (hneg : t.hour < 0) (m : RawMemory) :
    ¬ Prints (time t).text ((time t).toString m) := by
  rintro ⟨m', hm', hsign⟩
  obtain ⟨len, m'', hm'', hdigits⟩ := toString_writes h m
  obtain rfl : m' = m'' := congrArg Prod.snd (Option.some.inj (hm'.symm.trans hm''))
  rw [text, Time.text, timeText, signedDecimal, if_pos hneg] at hsign
  obtain ⟨b, l, hb⟩ := List.exists_cons_of_ne_nil (decimal_ne_nil (t.hour % 2 ^ 32).toNat)
  rw [written, timeText, hb] at hdigits
  have hdigit := isDigit_of_mem_decimal (hb ▸ List.mem_cons_self : b ∈ decimal (t.hour % 2 ^ 32).toNat)
  rw [← holds_head hdigits, holds_head hsign] at hdigit
  exact absurd hdigit (by decide)

theorem prints_iff (h : v.InRange) (m : RawMemory) : Prints v.text (v.toString m) ↔ v.Met := by
  cases v with
  | timestamp t =>
    obtain ⟨hlength, hholds⟩ := t.toString_eq h m
    constructor
    · rintro ⟨m', hm', -⟩
      by_contra hmet
      have hnano : t.nanoSeconds ≠ 0 := hmet
      have hlen := congrArg Prod.fst (Option.some.inj hm')
      rw [hlength, if_pos hnano] at hlen
      exact absurd hlen (by simp [text])
    · intro hmet
      have hnano : t.nanoSeconds = 0 := hmet
      rw [if_neg (not_not_intro hnano)] at hlength
      exact ⟨_, congrArg some (Prod.ext hlength rfl), hholds⟩
  | dateTime t => exact ⟨fun _ => trivial, fun _ => t.toString_prints h.1 h.2.1 h.2.2 m⟩
  | time t =>
    constructor
    · intro hprints
      by_contra hneg
      exact not_prints_negative h (Int.not_le.mp hneg) m hprints
    · intro hpos
      have hmet : 0 ≤ t.hour := hpos
      have hhour : t.hour < 2 ^ 31 := (toInt_extractLsb'_range _ _ (by omega)).2
      have hprints := t.toString_prints h.1 h.2.1 h.2.2 m
      have heq : decimal (t.hour % 2 ^ 32).toNat = signedDecimal t.hour := by
        rw [signedDecimal, if_neg (by omega)]
        exact congrArg decimal (by omega)
      rwa [heq] at hprints
  | date t => exact ⟨fun _ => trivial, fun _ => t.toString_prints m⟩

/-! ## Different values -/

/-- The fields of two values of one type. -/
def SameType : TimeValue → TimeValue → Prop
  | timestamp _, timestamp _ | dateTime _, dateTime _ | time _, time _ | date _, date _ => True
  | _, _ => False

def Writes (s : List UInt8) (r : Option (Nat × RawMemory)) : Prop :=
  0 ∉ s ∧ ∃ len m, r = some (len, m) ∧ JsonColumn.Holds 0 (s ++ [0]) m

theorem holds_getElem {u : List UInt8} (h : JsonColumn.Holds 0 u m) {i : Nat} (hi : i < u.length) :
    m i = u[i] := by
  have hget := congrArg (fun l => l[i]?) h
  simpa [RawMemory.read, hi] using hget

theorem Writes.unique {s t : List UInt8} (hs : 0 ∉ s) (ht : 0 ∉ t)
    (h : JsonColumn.Holds 0 (s ++ [0]) m)
    (h' : JsonColumn.Holds 0 (t ++ [0]) m) : s = t := by
  have hle : ∀ {s t : List UInt8}, 0 ∉ t → JsonColumn.Holds 0 (s ++ [0]) m →
      JsonColumn.Holds 0 (t ++ [0]) m →
      t.length ≤ s.length := by
    intro s t ht h h'
    by_contra hlt
    have hlt := Nat.not_le.mp hlt
    have hzero := holds_getElem h (i := s.length) (by simp)
    have hbyte := holds_getElem (h'.shorten (List.prefix_append t [0])) hlt
    rw [hzero] at hbyte
    refine ht ?_
    have hmem := List.getElem_mem hlt
    rw [← hbyte] at hmem
    simpa using hmem
  have hlength := Nat.le_antisymm (hle hs h' h) (hle ht h h')
  have hs' := h.shorten (List.prefix_append s [0])
  have ht' := h'.shorten (List.prefix_append t [0])
  rw [← hs', ← ht', hlength]

theorem zero_notMem_written (v : TimeValue) : 0 ∉ v.written := by
  have hdigit : ¬ IsDigit 0 := by decide
  have hdecimal : ∀ n, 0 ∉ decimal n := fun n h => hdigit (isDigit_of_mem_decimal h)
  have hlast : ∀ w n, 0 ∉ lastDigits w n := fun w n h => hdigit (isDigit_of_mem_lastDigits h)
  have hsigned : ∀ n, 0 ∉ signedDecimal n := by
    intro n
    unfold signedDecimal
    split <;> simp [hdecimal]
  have hfraction : ∀ c n, 0 ∉ fractionText c n := by
    intro c n
    cases c <;> simp [fractionText, hlast]
  cases v <;> simp [written, text, Timestamp.text, DateTime.text, Date.text, timeText, dateText, hdecimal,
    hlast, hsigned, hfraction]

theorem fractionText_head (c : Bool) (n : Nat) : ∀ b ∈ (fractionText c n).head?, ¬ IsDigit b := by
  cases c <;> simp [fractionText]
  decide

theorem fractionText_inj {c c' : Bool} {n n' : Nat} (hn : n < 10 ^ 6) (hn' : n' < 10 ^ 6)
    (hc : c = false → n = 0) (hc' : c' = false → n' = 0)
    (h : fractionText c n = fractionText c' n') : n = n' := by
  cases c <;> cases c' <;> simp only [fractionText] at h
  · rw [hc rfl, hc' rfl]
  · cases h
  · cases h
  · exact lastDigits_inj hn hn' (List.cons.inj h).2

theorem separator_head {d : UInt8} (hd : ¬ IsDigit d) (l : List UInt8) :
    ∀ b ∈ ([d] ++ l).head?, ¬ IsDigit b := by
  simpa using hd

theorem timeText_inj {h h' : List UInt8} {mi mi' s s' : Nat} {r r' : List UInt8} (hmi : mi < 63)
    (hmi' : mi' < 63) (hs : s < 63) (hs' : s' < 63) (hh : ∀ l l', h ++ ([0x3a] ++ l) =
      h' ++ ([0x3a] ++ l') → h = h' ∧ l = l') (heq : timeText h mi s ++ r = timeText h' mi' s' ++ r') :
    h = h' ∧ mi = mi' ∧ s = s' ∧ r = r' := by
  simp only [timeText, List.append_assoc] at heq
  obtain ⟨hhour, heq⟩ := hh _ _ heq
  obtain ⟨hmin, heq⟩ := lastDigits_append_inj (by omega) (by omega) heq
  obtain ⟨hsec, heq⟩ := lastDigits_append_inj (by omega) (by omega) (List.append_cancel_left heq)
  exact ⟨hhour, hmin, hsec, heq⟩

theorem dateText_inj {y y' : Int} {mo mo' d d' : Nat} {r r' : List UInt8} (hmo : mo < 63)
    (hmo' : mo' < 63) (hd : d < 63) (hd' : d' < 63)
    (heq : dateText y mo d ++ r = dateText y' mo' d' ++ r') : y = y' ∧ mo = mo' ∧ d = d' ∧ r = r' := by
  simp only [dateText, List.append_assoc] at heq
  obtain ⟨hyear, heq⟩ := signedDecimal_append_inj (separator_head (by decide) _)
    (separator_head (by decide) _) heq
  obtain ⟨hmonth, heq⟩ := lastDigits_append_inj (by omega) (by omega) (List.append_cancel_left heq)
  obtain ⟨hday, heq⟩ := lastDigits_append_inj (by omega) (by omega) (List.append_cancel_left heq)
  exact ⟨hyear, hmonth, hday, heq⟩

/-- Two values of a type with the same text have the same microseconds. -/
theorem micro_eq (hv : v.InRange) (hw : w.InRange) (htype : SameType v w)
    (h : v.written = w.written) : v.micro = w.micro := by
  cases v <;> cases w <;> try exact htype.elim
  case timestamp t t' =>
    have hnano : t.nanoSeconds < 10 ^ 9 := hv
    have hnano' : t'.nanoSeconds < 10 ^ 9 := hw
    obtain ⟨hseconds, hfraction⟩ :=
      decimal_append_inj (fractionText_head _ _) (fractionText_head _ _) h
    have hmicro := fractionText_inj (by omega) (by omega)
      (fun hzero => by rw [not_not.mp (of_decide_eq_false hzero)])
      (fun hzero => by rw [not_not.mp (of_decide_eq_false hzero)]) hfraction
    simp only [micro, hseconds, hmicro]
  case dateTime t t' =>
    obtain ⟨hmin, hsec, husec⟩ := hv
    obtain ⟨hmin', hsec', husec'⟩ := hw
    have hmonth : ∀ t : DateTime, t.month < 63 := fun _ => toNat_extractLsb'_lt _ _ (by omega)
    have hday : ∀ t : DateTime, t.day < 63 := fun _ => toNat_extractLsb'_lt _ _ (by omega)
    have hhour : ∀ t : DateTime, t.hour < 10 ^ 2 := fun _ => toNat_extractLsb'_lt _ _ (by omega)
    -- the date and the hour are in front of the first colon
    obtain ⟨heq, hmin, hsec, hfraction⟩ := timeText_inj hmin hmin' hsec hsec' (fun l l' heq => by
      simp only [List.append_assoc] at heq
      obtain ⟨hy, hmo, hd, heq⟩ := dateText_inj (hmonth t) (hmonth t') (hday t) (hday t') heq
      obtain ⟨hh, heq⟩ := lastDigits_append_inj (hhour t) (hhour t') (List.append_cancel_left heq)
      exact ⟨by rw [hy, hmo, hd, hh], List.append_cancel_left heq⟩) h
    have heq' := (List.append_nil _).trans (heq.trans (List.append_nil _).symm)
    simp only [List.append_assoc] at heq'
    obtain ⟨hy, hmo, hd, heq'⟩ := dateText_inj (hmonth t) (hmonth t') (hday t) (hday t') heq'
    obtain ⟨hh, -⟩ := lastDigits_append_inj (hhour t) (hhour t') (List.append_cancel_left heq')
    have husec := fractionText_inj husec husec' (fun hzero => not_not.mp (of_decide_eq_false hzero))
      (fun hzero => not_not.mp (of_decide_eq_false hzero)) hfraction
    simp [micro, DateTime.fields, hy, hmo, hd, hh, hmin, hsec, husec]
  case time t t' =>
    obtain ⟨hmin, hsec, hnsec⟩ := hv
    obtain ⟨hmin', hsec', hnsec'⟩ := hw
    obtain ⟨heq, hmin, hsec, hfraction⟩ := timeText_inj hmin hmin' hsec hsec' (fun l l' heq => by
      obtain ⟨hhour, heq⟩ := decimal_append_inj (separator_head (by decide) _)
        (separator_head (by decide) _) heq
      exact ⟨by rw [hhour], List.append_cancel_left heq⟩) h
    have hhour := decimal_inj heq
    have hmicro := fractionText_inj (by omega) (by omega)
      (fun hzero => by rw [not_not.mp (of_decide_eq_false hzero)])
      (fun hzero => by rw [not_not.mp (of_decide_eq_false hzero)]) hfraction
    have hrange : -2 ^ 31 ≤ t.hour ∧ t.hour < 2 ^ 31 := toInt_extractLsb'_range _ _ (by omega)
    have hrange' : -2 ^ 31 ≤ t'.hour ∧ t'.hour < 2 ^ 31 := toInt_extractLsb'_range _ _ (by omega)
    have hhour : t.hour = t'.hour := by omega
    simp only [micro, hhour, hmin, hsec, hmicro]
  case date t t' =>
    have hmonth : ∀ t : Date, t.month < 63 := fun _ => toNat_extractLsb'_lt _ _ (by omega)
    have hday : ∀ t : Date, t.day < 63 := fun _ => toNat_extractLsb'_lt _ _ (by omega)
    have heq := (List.append_nil _).trans ((h : dateText _ _ _ = dateText _ _ _).trans (List.append_nil _).symm)
    obtain ⟨hy, hmo, hd, -⟩ := dateText_inj (hmonth t) (hmonth t') (hday t) (hday t') heq
    simp [micro, Date.fields, hy, hmo, hd]

/-- `toString` prints exactly the values that have no part that it gets wrong, and values that
    differ in microseconds differently. -/
theorem toString_prints_iff (v : TimeValue) (hv : v.InRange) (m : RawMemory) :
    (Prints v.text (v.toString m) ↔ v.Met) ∧
      ∀ w : TimeValue, w.InRange → SameType v w → v.micro ≠ w.micro →
        ∀ m', ¬ ∃ s, Writes s (v.toString m) ∧ Writes s (w.toString m') := by
  refine ⟨prints_iff hv m, ?_⟩
  rintro w hw htype hne m' ⟨s, ⟨hs, len, m₁, hm₁, h₁⟩, -, len', m₂, hm₂, h₂⟩
  refine hne (micro_eq hv hw htype ?_)
  obtain ⟨len₁, m₁', hv', hwritten⟩ := toString_writes hv m
  obtain ⟨len₂, m₂', hw', hwritten'⟩ := toString_writes hw m'
  obtain rfl : m₁ = m₁' := congrArg Prod.snd (Option.some.inj (hm₁.symm.trans hv'))
  obtain rfl : m₂ = m₂' := congrArg Prod.snd (Option.some.inj (hm₂.symm.trans hw'))
  rw [Writes.unique (zero_notMem_written v) hs hwritten h₁,
    Writes.unique (zero_notMem_written w) hs hwritten' h₂]

theorem toString_prints_iff_seconds :
    Prints (timestamp ((Timestamp.mk 0).create 5 0)).text
        ((timestamp ((Timestamp.mk 0).create 5 0)).toString usecBuffer) ∧
      ∀ m', ¬ ∃ s, Writes s ((timestamp ((Timestamp.mk 0).create 5 0)).toString usecBuffer) ∧
        Writes s ((timestamp ((Timestamp.mk 0).create 6 0)).toString m') := by
  have hv : (timestamp ((Timestamp.mk 0).create 5 0)).InRange :=
    show ((Timestamp.mk 0).create 5 0).nanoSeconds < 10 ^ 9 by decide
  have hw : (timestamp ((Timestamp.mk 0).create 6 0)).InRange :=
    show ((Timestamp.mk 0).create 6 0).nanoSeconds < 10 ^ 9 by decide
  have h := toString_prints_iff _ hv usecBuffer
  exact ⟨h.1.mpr (show ((Timestamp.mk 0).create 5 0).nanoSeconds = 0 by decide),
    h.2 _ hw trivial (by decide)⟩

/-- 5.000007 s is written right, but the length is 8 and not 9; -1:30:00 has no sign. -/
theorem toString_length_and_sign :
    ¬ Prints (timestamp ((Timestamp.mk 0).create 5 7000)).text
        ((timestamp ((Timestamp.mk 0).create 5 7000)).toString usecBuffer) ∧
      ¬ Prints (time ((Time.mk 0).set (-1) 30 0 0)).text
        ((time ((Time.mk 0).set (-1) 30 0 0)).toString usecBuffer) := by
  refine ⟨fun h => ?_, fun h => ?_⟩
  · have hrange : (timestamp ((Timestamp.mk 0).create 5 7000)).InRange :=
      show ((Timestamp.mk 0).create 5 7000).nanoSeconds < 10 ^ 9 by decide
    have hmet := (prints_iff hrange usecBuffer).mp h
    exact absurd hmet (show ((Timestamp.mk 0).create 5 7000).nanoSeconds ≠ 0 by decide)
  · have hrange : (time ((Time.mk 0).set (-1) 30 0 0)).InRange := ⟨by decide, by decide, by decide⟩
    have hmet := (prints_iff hrange usecBuffer).mp h
    exact absurd hmet (show ¬ 0 ≤ ((Time.mk 0).set (-1) 30 0 0).hour by decide)

end TimeValue

end DBStream.Native.Meta
