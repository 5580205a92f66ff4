import DBStream.Native.TimeTypes

/-!
# Packed times

A word that `create` or `set` has stored its fields in gives them back whatever was in it before,
and it is the number that has the fields as its digits: packed times compare as their fields do,
from the most significant one down.
-/

namespace DBStream.Native.Meta

/-- Words that `create` has stored values `φ` in: the values are read back, no two have one word,
    and the words compare as the units of the values. -/
structure PacksInOrder {τ φ : Type} (InRange : φ → Prop) (create : τ → φ → τ) (fields : τ → φ)
    (packed : τ → Int) (units : φ → List Int) : Prop where
  read_back : ∀ t v, InRange v → fields (create t v) = v
  injective : ∀ t t' v v', InRange v → InRange v' →
    packed (create t v) = packed (create t' v') → v = v'
  lt_iff : ∀ t t' v v', InRange v → InRange v' →
    (packed (create t v) < packed (create t' v') ↔ units v < units v')

theorem PacksInOrder.of_mixed {τ φ : Type} {InRange : φ → Prop} {create : τ → φ → τ}
    {fields : τ → φ} {packed : τ → Int} {units : φ → List Int} (lead : φ → Int)
    (rest : φ → List Int) (radices : List Int)
    (hread : ∀ t v, InRange v → fields (create t v) = v)
    (hword : ∀ t t', packed t = packed t' → t = t')
    (hpacked : ∀ t, packed t = mixed (lead (fields t)) (radices.zip (rest (fields t))))
    (hrange : ∀ v, InRange v → List.Forall₂ (fun r d => 0 ≤ d ∧ d < r) radices (rest v))
    (hunits : ∀ v, units v = lead v :: rest v) :
    PacksInOrder InRange create fields packed units where
  read_back := hread
  injective := by
    intro t t' v v' hv hv' h
    rw [← hread t v hv, hword _ _ h, hread t' v' hv']
  lt_iff := by
    intro t t' v v' hv hv'
    rw [hpacked, hpacked, hread t v hv, hread t' v' hv', hunits, hunits]
    exact mixed_lt_iff _ _ (hrange v hv) (hrange v' hv')

/-! ## `timestamp` -/

structure Timestamp.Fields where
  seconds : Nat
  nanoSeconds : Nat

namespace Timestamp

def fields (t : Timestamp) : Fields := ⟨t.seconds, t.nanoSeconds⟩

def Fields.InRange (v : Fields) : Prop := v.seconds < 2 ^ 34 ∧ v.nanoSeconds < 2 ^ 30

def Fields.units (v : Fields) : List Int := [v.seconds, v.nanoSeconds]

theorem fields_create (t : Timestamp) (v : Fields) (h : v.InRange) :
    (t.create v.seconds v.nanoSeconds).fields = v := by
  obtain ⟨hseconds, hnanoSeconds⟩ := h
  simp only [fields, create, seconds, nanoSeconds]
  rw [BitVec.extractLsb'_setField_of_disjoint _ _ (by omega), BitVec.extractLsb'_setField _ _ (by omega),
    BitVec.extractLsb'_setField _ _ (by omega), BitVec.toNat_ofNat, BitVec.toNat_ofNat,
    Nat.mod_eq_of_lt hseconds, Nat.mod_eq_of_lt hnanoSeconds]

theorem time_eq (t : Timestamp) : (t.time.toNat : Int) = mixed t.seconds [(2 ^ 30, t.nanoSeconds)] := by
  have := t.time.isLt
  simp only [mixed, seconds, nanoSeconds, BitVec.extractLsb'_toNat, Nat.shiftRight_eq_div_pow]
  omega

theorem packsInOrder :
    PacksInOrder Fields.InRange (fun t v => t.create v.seconds v.nanoSeconds) fields
      (fun t => t.time.toNat) Fields.units := by
  refine .of_mixed (fun v => v.seconds) (fun v => [v.nanoSeconds]) [2 ^ 30] fields_create ?_ time_eq ?_
    fun _ => rfl
  · intro t t' h
    exact congrArg mk (BitVec.eq_of_toNat_eq (Int.ofNat_inj.mp h))
  · rintro v ⟨-, hnanoSeconds⟩
    exact .cons ⟨by omega, by omega⟩ .nil

end Timestamp

/-! ## `dateTime` -/

structure DateTime.Fields where
  year : Int
  month : Nat
  day : Nat
  hour : Nat
  min : Nat
  sec : Nat
  usec : Nat

namespace DateTime

def fields (t : DateTime) : Fields := ⟨t.year, t.month, t.day, t.hour, t.min, t.sec, t.usec⟩

structure Fields.InRange (v : Fields) : Prop where
  year : -2 ^ 17 ≤ v.year ∧ v.year < 2 ^ 17
  month : v.month < 2 ^ 4
  day : v.day < 2 ^ 5
  hour : v.hour < 2 ^ 5
  min : v.min < 2 ^ 6
  sec : v.sec < 2 ^ 6
  usec : v.usec < 2 ^ 20

def Fields.units (v : Fields) : List Int := [v.year, v.month, v.day, v.hour, v.min, v.sec, v.usec]

theorem fields_set (t : DateTime) (v : Fields) (h : v.InRange) :
    (t.set v.year v.month v.day v.hour v.min v.sec v.usec).fields = v := by
  simp (disch := omega) only [fields, set, year, month, day, hour, min, sec, usec,
    BitVec.extractLsb'_setField, BitVec.extractLsb'_setField_of_disjoint, BitVec.toNat_ofNat,
    BitVec.toInt_ofInt, Nat.mod_eq_of_lt h.month, Nat.mod_eq_of_lt h.day, Nat.mod_eq_of_lt h.hour,
    Nat.mod_eq_of_lt h.min, Nat.mod_eq_of_lt h.sec, Nat.mod_eq_of_lt h.usec]
  have := h.year
  rw [Int.bmod_eq_of_le (by omega) (by omega)]

theorem time_eq (t : DateTime) :
    t.time.toInt = mixed t.year ([2 ^ 4, 2 ^ 5, 2 ^ 5, 2 ^ 6, 2 ^ 6, 2 ^ 20].zip
      [(t.month : Int), t.day, t.hour, t.min, t.sec, t.usec]) := by
  have hyear : t.time.toInt = t.year * 2 ^ 46 + (t.time.toNat % 2 ^ 46 : Nat) :=
    t.time.toInt_eq_field 46 17 rfl
  have hmonth : t.time.toNat % 2 ^ 46 = t.month * 2 ^ 42 + _ := t.time.toNat_mod_add 42 4
  have hday : t.time.toNat % 2 ^ 42 = t.day * 2 ^ 37 + _ := t.time.toNat_mod_add 37 5
  have hhour : t.time.toNat % 2 ^ 37 = t.hour * 2 ^ 32 + _ := t.time.toNat_mod_add 32 5
  have hmin : t.time.toNat % 2 ^ 32 = t.min * 2 ^ 26 + _ := t.time.toNat_mod_add 26 6
  have hsec : t.time.toNat % 2 ^ 26 = t.sec * 2 ^ 20 + _ := t.time.toNat_mod_add 20 6
  have husec : t.time.toNat % 2 ^ 20 = t.usec * 2 ^ 0 + _ := t.time.toNat_mod_add 0 20
  rw [hyear, hmonth, hday, hhour, hmin, hsec, husec, Nat.pow_zero, Nat.mod_one]
  simp only [List.zip_cons_cons, List.zip_nil_right, mixed]
  omega

theorem packsInOrder :
    PacksInOrder Fields.InRange (fun t v => t.set v.year v.month v.day v.hour v.min v.sec v.usec)
      fields (fun t => t.time.toInt) Fields.units := by
  refine .of_mixed (fun v => v.year) (fun v => [v.month, v.day, v.hour, v.min, v.sec, v.usec]) _
    fields_set ?_ time_eq ?_ fun _ => rfl
  · intro t t' h
    exact congrArg mk (BitVec.eq_of_toInt_eq h)
  · rintro v ⟨-, hmonth, hday, hhour, hmin, hsec, husec⟩
    exact .cons (by omega) (.cons (by omega) (.cons (by omega) (.cons (by omega)
      (.cons (by omega) (.cons (by omega) .nil)))))

end DateTime

/-! ## `Time` -/

structure Time.Fields where
  hour : Int
  min : Nat
  sec : Nat
  nsec : Nat

namespace Time

def fields (t : Time) : Fields := ⟨t.hour, t.min, t.sec, t.nsec⟩

structure Fields.InRange (v : Fields) : Prop where
  hour : -2 ^ 21 ≤ v.hour ∧ v.hour < 2 ^ 21
  min : v.min < 2 ^ 6
  sec : v.sec < 2 ^ 6
  nsec : v.nsec < 2 ^ 30

def Fields.units (v : Fields) : List Int := [v.hour, v.min, v.sec, v.nsec]

theorem fields_set (t : Time) (v : Fields) (h : v.InRange) :
    (t.set v.hour v.min v.sec v.nsec).fields = v := by
  simp (disch := omega) only [fields, set, hour, min, sec, nsec, BitVec.extractLsb'_setField,
    BitVec.extractLsb'_setField_of_disjoint, BitVec.toNat_ofNat, BitVec.toInt_ofInt,
    Nat.mod_eq_of_lt h.min, Nat.mod_eq_of_lt h.sec, Nat.mod_eq_of_lt h.nsec]
  have := h.hour
  rw [Int.bmod_eq_of_le (by omega) (by omega)]

theorem time_eq (t : Time) :
    t.time.toInt = mixed t.hour ([2 ^ 6, 2 ^ 6, 2 ^ 30].zip [(t.min : Int), t.sec, t.nsec]) := by
  have hhour : t.time.toInt = t.hour * 2 ^ 42 + (t.time.toNat % 2 ^ 42 : Nat) :=
    t.time.toInt_eq_field 42 21 rfl
  have hmin : t.time.toNat % 2 ^ 42 = t.min * 2 ^ 36 + _ := t.time.toNat_mod_add 36 6
  have hsec : t.time.toNat % 2 ^ 36 = t.sec * 2 ^ 30 + _ := t.time.toNat_mod_add 30 6
  have hnsec : t.time.toNat % 2 ^ 30 = t.nsec * 2 ^ 0 + _ := t.time.toNat_mod_add 0 30
  rw [hhour, hmin, hsec, hnsec, Nat.pow_zero, Nat.mod_one]
  simp only [List.zip_cons_cons, List.zip_nil_right, mixed]
  omega

theorem packsInOrder :
    PacksInOrder Fields.InRange (fun t v => t.set v.hour v.min v.sec v.nsec) fields
      (fun t => t.time.toInt) Fields.units := by
  refine .of_mixed (fun v => v.hour) (fun v => [v.min, v.sec, v.nsec]) _ fields_set ?_ time_eq ?_
    fun _ => rfl
  · intro t t' h
    exact congrArg mk (BitVec.eq_of_toInt_eq h)
  · rintro v ⟨-, hmin, hsec, hnsec⟩
    exact .cons (by omega) (.cons (by omega) (.cons (by omega) .nil))

end Time

/-! ## `Date` -/

structure Date.Fields where
  year : Int
  month : Nat
  day : Nat

namespace Date

def fields (t : Date) : Fields := ⟨t.year, t.month, t.day⟩

structure Fields.InRange (v : Fields) : Prop where
  year : -2 ^ 22 ≤ v.year ∧ v.year < 2 ^ 22
  month : v.month < 2 ^ 4
  day : v.day < 2 ^ 5

def Fields.units (v : Fields) : List Int := [v.year, v.month, v.day]

theorem fields_set (t : Date) (v : Fields) (h : v.InRange) :
    (t.set v.year v.month v.day).fields = v := by
  simp (disch := omega) only [fields, set, year, month, day, BitVec.extractLsb'_setField,
    BitVec.extractLsb'_setField_of_disjoint, BitVec.toNat_ofNat, BitVec.toInt_ofInt,
    Nat.mod_eq_of_lt h.month, Nat.mod_eq_of_lt h.day]
  have := h.year
  rw [Int.bmod_eq_of_le (by omega) (by omega)]

theorem time_eq (t : Date) :
    t.time.toInt = mixed t.year ([2 ^ 4, 2 ^ 5].zip [(t.month : Int), t.day]) := by
  simp only [List.zip_cons_cons, List.zip_nil_right, mixed, year, month, day,
    BitVec.toInt_eq_toNat_cond, BitVec.extractLsb'_toNat, Nat.shiftRight_eq_div_pow]
  omega

theorem eq_of_fields {t t' : Date} (h : t.fields = t'.fields) : t = t' := by
  obtain ⟨hyear, hmonth, hday⟩ := Fields.mk.inj h
  have htime : t.time.toInt = t'.time.toInt := by
    rw [time_eq, time_eq, hyear, hmonth, hday]
  exact congrArg mk (BitVec.eq_of_toInt_eq htime)

theorem packsInOrder :
    PacksInOrder Fields.InRange (fun t v => t.set v.year v.month v.day) fields
      (fun t => t.time.toInt) Fields.units := by
  refine .of_mixed (fun v => v.year) (fun v => [v.month, v.day]) _ fields_set ?_ time_eq ?_
    fun _ => rfl
  · intro t t' h
    exact congrArg mk (BitVec.eq_of_toInt_eq h)
  · rintro v ⟨-, hmonth, hday⟩
    exact .cons (by omega) (.cons (by omega) .nil)

end Date

/-- Packed times of the four types are read back, differ, and are in the order of their fields. -/
theorem times_packsInOrder :
    PacksInOrder Timestamp.Fields.InRange (fun t v => t.create v.seconds v.nanoSeconds)
      Timestamp.fields (fun t => t.time.toNat) Timestamp.Fields.units ∧
    PacksInOrder DateTime.Fields.InRange
      (fun t v => t.set v.year v.month v.day v.hour v.min v.sec v.usec) DateTime.fields
      (fun t => t.time.toInt) DateTime.Fields.units ∧
    PacksInOrder Time.Fields.InRange (fun t v => t.set v.hour v.min v.sec v.nsec) Time.fields
      (fun t => t.time.toInt) Time.Fields.units ∧
    PacksInOrder Date.Fields.InRange (fun t v => t.set v.year v.month v.day) Date.fields
      (fun t => t.time.toInt) Date.Fields.units :=
  ⟨Timestamp.packsInOrder, DateTime.packsInOrder, Time.packsInOrder, Date.packsInOrder⟩

end DBStream.Native.Meta
