import DBStream.ForStd.BitFields
import DBStream.Native.JsonColumn

/-!
# Time types

`timestamp`, `dateTime`, `Time` and `Date` of `meta/columnType.h`: unions of one word with bit
fields, which are laid out from the least significant bit on.  Reading a field gives its number,
with a sign for the topmost one of `dateTime`, `Time` and `Date`.

A `char* str` is the memory from there on.
-/

namespace DBStream.Native.Meta

open DATA_SOURCE.JsonColumn (u32toa_sse2 i32toa_sse2 u64toa_sse2)

/-- `numToStrMap`: the two digits of 0 to 62. -/
def numToStrMap : List Nat := [
  0x3030, 0x3130, 0x3230, 0x3330, 0x3430, 0x3530, 0x3630, 0x3730, 0x3830, 0x3930,
  0x3031, 0x3131, 0x3231, 0x3331, 0x3431, 0x3531, 0x3631, 0x3731, 0x3831, 0x3931,
  0x3032, 0x3132, 0x3232, 0x3332, 0x3432, 0x3532, 0x3632, 0x3732, 0x3832, 0x3932,
  0x3033, 0x3133, 0x3233, 0x3333, 0x3433, 0x3533, 0x3633, 0x3733, 0x3833, 0x3933,
  0x3034, 0x3134, 0x3234, 0x3334, 0x3434, 0x3534, 0x3634, 0x3734, 0x3834, 0x3934,
  0x3035, 0x3135, 0x3235, 0x3335, 0x3435, 0x3535, 0x3635, 0x3735, 0x3835, 0x3935,
  0x3036, 0x3136, 0x3236]

/-- `*(uint16_t*)&str[p] = numToStrMap[n]`; there is no entry behind the last one. -/
def putNum (n p : Nat) (m : RawMemory) : Option RawMemory := do
  return m.writeWord 2 p (← numToStrMap[n]?)

/-- `usecBuffer`; what is in it before does not matter. -/
def usecBuffer : RawMemory := fun _ => 0

/-- The digits of a fraction at `p`: six times `0` and a byte 0, then those of `usec` from the
buffer, as far right as they go. -/
def putFraction (usec p : Nat) (m : RawMemory) : RawMemory :=
  let m := m.writeWord 8 p 3458817497345568816
  let r := u32toa_sse2 usec 0 usecBuffer
  let secLen := r.1.toNat
  m.write (p + 6 + 1 - secLen) (r.2.read 0 secLen)

/-! ## `timestamp` -/

structure Timestamp where
  time : BitVec 64

namespace Timestamp

variable (t : Timestamp)

def nanoSeconds : Nat := (t.time.extractLsb' 0 30).toNat

def seconds : Nat := (t.time.extractLsb' 30 34).toNat

/-- `create`, of an object with any bits. -/
def create (seconds nanoSeconds : Nat) : Timestamp :=
  ⟨(t.time.setField 30 (BitVec.ofNat 34 seconds)).setField 0 (BitVec.ofNat 30 nanoSeconds)⟩

def toString (m : RawMemory) : Nat × RawMemory :=
  let r := u64toa_sse2 t.seconds 0 m
  let len := r.1.toNat
  if t.nanoSeconds ≠ 0 then
    (len + 6, putFraction (t.nanoSeconds / 1000) len (r.2.write (len - 1) [0x2e]))
  else (len, r.2)

end Timestamp

/-! ## `dateTime` -/

structure DateTime where
  time : BitVec 64

namespace DateTime

variable (t : DateTime)

def usec : Nat := (t.time.extractLsb' 0 20).toNat

def sec : Nat := (t.time.extractLsb' 20 6).toNat

def min : Nat := (t.time.extractLsb' 26 6).toNat

def hour : Nat := (t.time.extractLsb' 32 5).toNat

def day : Nat := (t.time.extractLsb' 37 5).toNat

def month : Nat := (t.time.extractLsb' 42 4).toNat

def year : Int := (t.time.extractLsb' 46 18).toInt

/-- `set`, and `createDate` of an object with any bits. -/
def set (_year : Int) (_month _day _hour _mi _sec _usec : Nat) : DateTime :=
  let time := t.time.setField 0 (BitVec.ofNat 20 _usec)
  let time := time.setField 20 (BitVec.ofNat 6 _sec)
  let time := time.setField 26 (BitVec.ofNat 6 _mi)
  let time := time.setField 32 (BitVec.ofNat 5 _hour)
  let time := time.setField 37 (BitVec.ofNat 5 _day)
  let time := time.setField 42 (BitVec.ofNat 4 _month)
  ⟨time.setField 46 (BitVec.ofInt 18 _year)⟩

def toString (m : RawMemory) : Option (Nat × RawMemory) := do
  let r := i32toa_sse2 t.year 0 m
  let yearLength := r.1.toNat
  let m := r.2.write (yearLength - 1) [0x2d]
  let m ← putNum t.month yearLength m
  let m := m.write (yearLength + 2) [0x2d]
  let m ← putNum t.day (yearLength + 3) m
  let m := m.write (yearLength + 5) [0x20]
  let m ← putNum t.hour (yearLength + 6) m
  let m := m.write (yearLength + 8) [0x3a]
  let m ← putNum t.min (yearLength + 9) m
  let m := m.write (yearLength + 11) [0x3a]
  let m ← putNum t.sec (yearLength + 12) m
  if t.usec ≠ 0 then
    let m := m.write (yearLength + 14) [0x2e]
    return (yearLength + 15 + 6 + 1, putFraction t.usec (yearLength + 15) m)
  else return (yearLength + 15, m.write (yearLength + 14) [0])

end DateTime

/-! ## `Time` -/

structure Time where
  time : BitVec 64

namespace Time

variable (t : Time)

def nsec : Nat := (t.time.extractLsb' 0 30).toNat

def sec : Nat := (t.time.extractLsb' 30 6).toNat

def min : Nat := (t.time.extractLsb' 36 6).toNat

def hour : Int := (t.time.extractLsb' 42 22).toInt

/-- `set`, and `createTime` of an object with any bits. -/
def set (hour : Int) (mi second nsec : Nat) : Time :=
  let time := t.time.setField 42 (BitVec.ofInt 22 hour)
  let time := time.setField 36 (BitVec.ofNat 6 mi)
  let time := time.setField 30 (BitVec.ofNat 6 second)
  ⟨time.setField 0 (BitVec.ofNat 30 nsec)⟩

def toString (m : RawMemory) : Option (Nat × RawMemory) := do
  -- the hour becomes a `uint32_t`
  let r := u32toa_sse2 (t.hour % 2 ^ 32).toNat 0 m
  let hourLength := r.1.toNat
  let m := r.2.write (hourLength - 1) [0x3a]
  let m ← putNum t.min hourLength m
  let m := m.write (hourLength + 2) [0x3a]
  let m ← putNum t.sec (hourLength + 3) m
  if t.nsec ≠ 0 then
    let m := m.write (hourLength + 5) [0x2e]
    return (hourLength + 6 + 6 + 1, putFraction (t.nsec / 1000) (hourLength + 6) m)
  else return (hourLength + 6, m.write (hourLength + 5) [0])

end Time

/-! ## `Date` -/

structure Date where
  time : BitVec 32

namespace Date

variable (t : Date)

def day : Nat := (t.time.extractLsb' 0 5).toNat

def month : Nat := (t.time.extractLsb' 5 4).toNat

def year : Int := (t.time.extractLsb' 9 23).toInt

/-- `set`, and `createDate` of an object with any bits. -/
def set (_year : Int) (_month _day : Nat) : Date :=
  let time := t.time.setField 0 (BitVec.ofNat 5 _day)
  let time := time.setField 5 (BitVec.ofNat 4 _month)
  ⟨time.setField 9 (BitVec.ofInt 23 _year)⟩

def toString (m : RawMemory) : Option (Nat × RawMemory) := do
  let r := i32toa_sse2 t.year 0 m
  let yearLength := r.1.toNat
  let m := r.2.write (yearLength - 1) [0x2d]
  let m ← putNum t.month yearLength m
  let m := m.write (yearLength + 2) [0x2d]
  let m ← putNum t.day (yearLength + 3) m
  return (yearLength + 6, m.write (yearLength + 5) [0])

end Date

end DBStream.Native.Meta
