import DBStream.ForStd.Bytes
import Mathlib.Tactic.NormNum

/-!
# Memory as bytes

A byte at every address, with reads and writes of ranges, of little-endian words and of the bits of
a bitmap.  A range that a write does not touch is read as before.
-/

/-- A byte at every address. -/
def RawMemory := Nat → UInt8

namespace RawMemory

/-- The `n` bytes at `p`. -/
def read (m : RawMemory) (p n : Nat) : List UInt8 := (List.range n).map fun i => m (p + i)

/-- Write `d` at `p`. -/
def write (m : RawMemory) (p : Nat) (d : List UInt8) : RawMemory := fun i =>
  if p ≤ i then d[i - p]?.getD (m i) else m i

/-- The word of `w` bytes at `p`. -/
def readWord (m : RawMemory) (w p : Nat) : Nat := LE.nat (m.read p w)

/-- Write a word of `w` bytes at `p`. -/
def writeWord (m : RawMemory) (w p n : Nat) : RawMemory := m.write p (LE.bytes w n)

variable {m m' : RawMemory} {p q n : Nat} {d : List UInt8}

@[simp] theorem length_read : (m.read p n).length = n := by simp [read]

theorem write_of_lt {i : Nat} (h : i < p) : m.write p d i = m i := by
  simp [write, Nat.not_le.mpr h]

theorem write_of_ge {i : Nat} (h : p + d.length ≤ i) : m.write p d i = m i := by
  have hnone : d[i - p]? = none := List.getElem?_eq_none (by omega)
  simp [write, hnone]

@[simp] theorem write_nil (m : RawMemory) (p : Nat) : m.write p [] = m := by
  funext i
  simp [write]

theorem write_append (m : RawMemory) (p : Nat) (d e : List UInt8) :
    (m.write p d).write (p + d.length) e = m.write p (d ++ e) := by
  funext i
  simp only [write]
  by_cases hd : i < p + d.length
  · rw [if_neg (by omega)]
    by_cases hp : p ≤ i
    · rw [if_pos hp, if_pos hp, List.getElem?_append_left (by omega)]
    · rw [if_neg hp, if_neg hp]
  · have hnone : d[i - p]? = none := List.getElem?_eq_none (by omega)
    rw [if_pos (by omega), if_pos (by omega), if_pos (by omega), hnone,
      List.getElem?_append_right (by omega), show i - p - d.length = i - (p + d.length) by omega]
    rfl

theorem write_last {x : UInt8} (h : d.getLast? = some x) : m.write p d (p + (d.length - 1)) = x := by
  rw [List.getLast?_eq_getElem?] at h
  simp [write, h]

theorem write_replicate {a : Nat} {x : UInt8} (h : p ≤ a) (hlt : a < p + n) :
    m.write p (List.replicate n x) a = x := by
  simp [write, h, show a - p < n by omega]

theorem write_zeros (m : RawMemory) (p n a : Nat) :
    m.write p (List.replicate n 0) a = m a ∨ m.write p (List.replicate n 0) a = 0 := by
  by_cases h : p ≤ a ∧ a < p + n
  · exact .inr (write_replicate h.1 h.2)
  · left
    obtain hlt | hge : a < p ∨ p + n ≤ a := by omega
    · exact write_of_lt hlt
    · exact write_of_ge (by simpa using hge)

theorem read_congr (h : ∀ i, p ≤ i → i < p + n → m' i = m i) : m'.read p n = m.read p n := by
  apply List.map_congr_left
  intro i hi
  have hi := List.mem_range.mp hi
  exact h (p + i) (by omega) (by omega)

theorem read_write_self : (m.write p d).read p d.length = d := by
  apply List.ext_getElem (by simp)
  intro i _ hi
  simp [read, write, List.getElem?_eq_getElem hi]

theorem read_write_of_disjoint (h : p + n ≤ q ∨ q + d.length ≤ p) :
    (m.write q d).read p n = m.read p n := by
  apply read_congr
  intro i hp hn
  obtain h | h := h
  · exact write_of_lt (by omega)
  · exact write_of_ge (by omega)

theorem read_add (m : RawMemory) (p a b : Nat) : m.read p (a + b) = m.read p a ++ m.read (p + a) b := by
  simp [read, List.range_add, Nat.add_assoc]

theorem slice_read {off len : Nat} (h : off + len ≤ n) :
    (m.read p n).slice off len = m.read (p + off) len := by
  obtain ⟨k, rfl⟩ := Nat.exists_eq_add_of_le h
  rw [read_add, read_add, List.append_assoc]
  exact List.slice_append_mid _ length_read length_read

/-! ## Words -/

theorem readWord_writeWord {w : Nat} : (m.writeWord w p n).readWord w p = n % 256 ^ w := by
  have hread : (m.write p (LE.bytes w n)).read p w = LE.bytes w n := by
    simpa using read_write_self (m := m) (p := p) (d := LE.bytes w n)
  rw [readWord, writeWord, hread, LE.nat_bytes]

theorem readWord_writeWord_self {w : Nat} (h : n < 256 ^ w) :
    (m.writeWord w p n).readWord w p = n := by
  rw [readWord_writeWord, Nat.mod_eq_of_lt h]

theorem readWord_writeWord_of_disjoint {w v : Nat} (h : p + v ≤ q ∨ q + w ≤ p) :
    (m.writeWord w q n).readWord v p = m.readWord v p := by
  rw [readWord, writeWord, read_write_of_disjoint (by simpa using h), readWord]

theorem readWord_write_of_disjoint {v : Nat} (h : p + v ≤ q ∨ q + d.length ≤ p) :
    (m.write q d).readWord v p = m.readWord v p := by
  rw [readWord, read_write_of_disjoint h, readWord]

theorem read_succ (m : RawMemory) (p n : Nat) : m.read p (n + 1) = m p :: m.read (p + 1) n := by
  rw [Nat.add_comm n 1, read_add]
  simp [read]

theorem readWord_le {w : Nat} (h : ∀ k < w, m' (p + k) = m (p + k) ∨ m' (p + k) = 0) :
    m'.readWord w p ≤ m.readWord w p := by
  induction w generalizing p with
  | zero => exact Nat.le_refl _
  | succ w ih =>
    have hrest : m'.readWord w (p + 1) ≤ m.readWord w (p + 1) := ih fun k hk => by
      simpa [Nat.add_assoc, Nat.add_comm 1] using h (k + 1) (by omega)
    have hfirst : (m' p).toNat ≤ (m p).toNat := by
      obtain h | h := h 0 (by omega)
      · exact Nat.le_of_eq (congrArg UInt8.toNat h)
      · rw [show m' p = 0 from h]
        exact Nat.zero_le _
    simp only [readWord] at hrest
    rw [readWord, readWord, read_succ, read_succ, LE.nat_cons, LE.nat_cons]
    omega

/-! ## Bitmaps -/

/-- Bit `i` of the bitmap at `p`. -/
def testBit (m : RawMemory) (p i : Nat) : Bool :=
  (m (p + i >>> 3) >>> UInt8.ofNat (i &&& 7)) &&& 1 == 1

/-- Set bit `i` of the bitmap at `p`. -/
def setBit (m : RawMemory) (p i : Nat) : RawMemory :=
  m.write (p + i >>> 3) [m (p + i >>> 3) ||| (1 <<< UInt8.ofNat (i &&& 7))]

/-- Clear bit `i` of the bitmap at `p`. -/
def clearBit (m : RawMemory) (p i : Nat) : RawMemory :=
  m.write (p + i >>> 3) [m (p + i >>> 3) &&& ~~~(1 <<< UInt8.ofNat (i &&& 7))]

theorem toNat_one_shiftLeft {k : Nat} (hk : k < 8) :
    ((1 : UInt8) <<< UInt8.ofNat k).toNat = 2 ^ k := by
  have hlt : 2 ^ k < 256 := Nat.pow_lt_pow_right (by omega) (show k < 8 by omega)
  simp [UInt8.toNat_shiftLeft, Nat.mod_eq_of_lt (show k < 256 by omega), Nat.mod_eq_of_lt hk,
    Nat.shiftLeft_eq, Nat.mod_eq_of_lt hlt]

theorem and_seven (i : Nat) : i &&& 7 = i % 8 := Nat.and_two_pow_sub_one_eq_mod i 3

theorem shiftRight_three (i : Nat) : i >>> 3 = i / 8 := Nat.shiftRight_eq_div_pow i 3

theorem testBit_eq (m : RawMemory) (p i : Nat) :
    m.testBit p i = (m (p + i / 8)).toNat.testBit (i % 8) := by
  rw [testBit, and_seven, shiftRight_three]
  generalize m (p + i / 8) = b
  have hbit : (b >>> UInt8.ofNat (i % 8) &&& 1).toNat = (b.toNat >>> (i % 8)) % 2 := by
    simp [UInt8.toNat_shiftRight, Nat.mod_eq_of_lt (show i % 8 < 256 by omega)]
  rw [Bool.eq_iff_iff, beq_iff_eq, ← UInt8.toNat_inj, hbit, Nat.testBit_eq_decide_div_mod_eq,
    Nat.shiftRight_eq_div_pow]
  simp

theorem testBit_congr {i : Nat} (h : m' (p + i / 8) = m (p + i / 8)) :
    m'.testBit p i = m.testBit p i := by
  rw [testBit_eq, testBit_eq, h]

theorem testBit_of_zero {i : Nat} (h : m (p + i / 8) = 0) : m.testBit p i = false := by
  rw [testBit_eq, h]
  simp

theorem setBit_of_ne {a i : Nat} (h : a ≠ p + i / 8) : m.setBit p i a = m a := by
  rw [setBit, shiftRight_three]
  obtain hlt | hgt := Nat.lt_or_gt_of_ne h
  · exact write_of_lt hlt
  · exact write_of_ge (show p + i / 8 + 1 ≤ a from hgt)

theorem clearBit_of_ne {a i : Nat} (h : a ≠ p + i / 8) : m.clearBit p i a = m a := by
  rw [clearBit, shiftRight_three]
  obtain hlt | hgt := Nat.lt_or_gt_of_ne h
  · exact write_of_lt hlt
  · exact write_of_ge (show p + i / 8 + 1 ≤ a from hgt)

theorem mod_ne_of_div_eq {i j : Nat} (h : j ≠ i) (hdiv : j / 8 = i / 8) : j % 8 ≠ i % 8 := by
  omega

theorem testBit_setBit (m : RawMemory) (p i j : Nat) :
    (m.setBit p i).testBit p j = (decide (j = i) || m.testBit p j) := by
  have hi : i % 8 < 8 := Nat.mod_lt _ (by omega)
  by_cases hdiv : j / 8 = i / 8
  · have hbyte : m.setBit p i (p + j / 8) = m (p + j / 8) ||| (1 <<< UInt8.ofNat (i % 8)) := by
      rw [setBit, shiftRight_three, and_seven, hdiv]
      simp [write]
    rw [testBit_eq, testBit_eq, hbyte, UInt8.toNat_or, Nat.testBit_or, toNat_one_shiftLeft hi,
      Nat.testBit_two_pow, Bool.or_comm]
    by_cases hji : j = i
    · simp [hji]
    · simp [hji, (mod_ne_of_div_eq hji hdiv).symm]
  · have hne : j ≠ i := fun h => hdiv (h ▸ rfl)
    rw [testBit_congr (setBit_of_ne (by omega)), decide_eq_false hne, Bool.false_or]

theorem testBit_clearBit (m : RawMemory) (p i j : Nat) :
    (m.clearBit p i).testBit p j = (decide (j ≠ i) && m.testBit p j) := by
  have hi : i % 8 < 8 := Nat.mod_lt _ (by omega)
  have hlt : 2 ^ (i % 8) < 2 ^ 8 := Nat.pow_lt_pow_right (by omega) hi
  by_cases hdiv : j / 8 = i / 8
  · have hbyte : m.clearBit p i (p + j / 8) = m (p + j / 8) &&& ~~~(1 <<< UInt8.ofNat (i % 8)) := by
      rw [clearBit, shiftRight_three, and_seven, hdiv]
      simp [write]
    have hnot : (~~~((1 : UInt8) <<< UInt8.ofNat (i % 8))).toNat = 2 ^ 8 - (2 ^ (i % 8) + 1) := by
      rw [UInt8.toNat_not, toNat_one_shiftLeft hi]
      simp
    rw [testBit_eq, testBit_eq, hbyte, UInt8.toNat_and, Nat.testBit_and, hnot,
      Nat.testBit_two_pow_sub_succ hlt, Nat.testBit_two_pow, Bool.and_comm,
      decide_eq_true (show j % 8 < 8 by omega), Bool.true_and]
    by_cases hji : j = i
    · simp [hji]
    · simp [hji, (mod_ne_of_div_eq hji hdiv).symm]
  · have hne : j ≠ i := fun h => hdiv (h ▸ rfl)
    rw [testBit_congr (clearBit_of_ne (by omega)), decide_eq_true hne, Bool.true_and]

/-! ## What is left alone -/

/-- From the first memory to the second, nothing from `n` on is changed. -/
def ChangedBelow (n : Nat) (m m' : RawMemory) : Prop := ∀ a, n ≤ a → m' a = m a

namespace ChangedBelow

theorem refl (m : RawMemory) (n : Nat) : ChangedBelow n m m := fun _ _ => rfl

theorem trans {m'' : RawMemory} (h : ChangedBelow n m m') (h' : ChangedBelow n m' m'') :
    ChangedBelow n m m'' := by
  intro a ha
  rw [h' a ha, h a ha]

theorem mono {k : Nat} (h : ChangedBelow n m m') (hk : n ≤ k) : ChangedBelow k m m' :=
  fun a ha => h a (by omega)

theorem write (h : ChangedBelow n m m') (hd : p + d.length ≤ n) :
    ChangedBelow n m (m'.write p d) := by
  intro a ha
  rw [write_of_ge (by omega), h a ha]

theorem writeWord (h : ChangedBelow n m m') {w k : Nat} (hw : p + w ≤ n) :
    ChangedBelow n m (m'.writeWord w p k) := h.write (by simpa using hw)

theorem setBit (h : ChangedBelow n m m') {i : Nat} (hi : p + i / 8 < n) :
    ChangedBelow n m (m'.setBit p i) := by
  intro a ha
  rw [setBit_of_ne (by omega), h a ha]

theorem clearBit (h : ChangedBelow n m m') {i : Nat} (hi : p + i / 8 < n) :
    ChangedBelow n m (m'.clearBit p i) := by
  intro a ha
  rw [clearBit_of_ne (by omega), h a ha]

end ChangedBelow

theorem eq_of_read_eq {i : Nat} (h : m'.read p n = m.read p n) (hi : i < n) :
    m' (p + i) = m (p + i) := by
  have hget := congrArg (fun l => l[i]?) h
  simpa [read, hi] using hget

theorem eq_of_readWord_eq {i w : Nat} (h : m'.readWord w p = m.readWord w p) (hi : i < w) :
    m' (p + i) = m (p + i) := by
  have hbytes := congrArg (LE.bytes w) h
  have hsame (m : RawMemory) : LE.bytes w (m.readWord w p) = m.read p w := by
    have hread := LE.bytes_nat (m.read p w)
    rwa [length_read] at hread
  rw [hsame, hsame] at hbytes
  exact eq_of_read_eq hbytes hi

/-- If the byte in front of `e` is written whatever is in memory, only a bound from `e` on can be one
    for what is changed. -/
theorem le_of_changedBelow {e : Nat} {R : RawMemory → RawMemory → Prop} (he : 0 < e)
    (hrun : ∀ m, ∃ m', R m m' ∧ ChangedBelow n m m')
    (hbyte : ∀ m₁ m₁' m₂ m₂', R m₁ m₁' → R m₂ m₂' → m₂' (e - 1) = m₁' (e - 1)) : e ≤ n := by
  by_contra hlt
  obtain ⟨m₁, hR₁, -⟩ := hrun fun _ => 0
  -- a memory that has another byte there is changed
  obtain ⟨m₂, hR₂, hbelow⟩ := hrun fun _ => m₁ (e - 1) + 1
  have hchanged : m₁ (e - 1) + 1 = m₁ (e - 1) :=
    (hbelow (e - 1) (by omega)).symm.trans (hbyte _ _ _ _ hR₁ hR₂)
  have hnat := congrArg UInt8.toNat hchanged
  rw [UInt8.toNat_add] at hnat
  have hone : (1 : UInt8).toNat = 1 := rfl
  omega

end RawMemory
