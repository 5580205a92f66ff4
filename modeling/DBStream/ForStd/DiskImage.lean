import DBStream.ForStd.Bytes

/-!
# Files that are written at offsets

A file is its length and its bytes; what was never written below the length reads as zero.
A read succeeds if the file has all the bytes asked for.
-/

/-- The contents of a file. -/
structure DiskImage where
  length : Nat
  byte : Nat → UInt8

namespace DiskImage

/-- A new file. -/
def empty : DiskImage where
  length := 0
  byte := fun _ => 0

/-- Write `d` at `off`. -/
def write (f : DiskImage) (off : Nat) (d : List UInt8) : DiskImage where
  length := if d = [] then f.length else max f.length (off + d.length)
  byte := fun i => if off ≤ i then d[i - off]?.getD (f.byte i) else f.byte i

/-- Read `n` bytes at `off`. -/
def read (f : DiskImage) (off n : Nat) : Option (List UInt8) :=
  if n = 0 ∨ off + n ≤ f.length then some ((List.range n).map fun i => f.byte (off + i))
  else none

variable {f g : DiskImage} {off n : Nat} {d : List UInt8}

theorem byte_write_lt {i : Nat} (h : i < off) : (f.write off d).byte i = f.byte i := by
  simp [write, Nat.not_le.mpr h]

theorem byte_write_ge {i : Nat} (h : off + d.length ≤ i) :
    (f.write off d).byte i = f.byte i := by
  have hnone : d[i - off]? = none := List.getElem?_eq_none (by omega)
  simp [write, hnone]

theorem length_le_write : f.length ≤ (f.write off d).length := by
  unfold write
  dsimp only
  split
  · exact Nat.le_refl _
  · exact Nat.le_max_left ..

theorem read_write_self : (f.write off d).read off d.length = some d := by
  have hlen : d.length = 0 ∨ off + d.length ≤ (f.write off d).length := by
    by_cases hd : d = []
    · exact Or.inl (by simp [hd])
    · right
      simp only [write, hd, if_false]
      exact Nat.le_max_right ..
  rw [read, if_pos hlen]
  congr 1
  apply List.ext_getElem (by simp)
  intro i _ hi
  simp [write, List.getElem?_eq_getElem hi]

theorem read_of_agree (hlen : f.length ≤ g.length)
    (hbyte : ∀ i < n, g.byte (off + i) = f.byte (off + i)) (h : f.read off n = some d) :
    g.read off n = some d := by
  unfold read at h ⊢
  split at h
  · rename_i hcond
    rw [if_pos (by omega), ← h]
    congr 1
    apply List.map_congr_left
    intro i hi
    exact hbyte i (List.mem_range.mp hi)
  · cases h

theorem read_of_zero (hbyte : ∀ i < n, f.byte (off + i) = 0) :
    f.read off n = none ∨ f.read off n = some (List.replicate n 0) := by
  unfold read
  split
  · right
    congr 1
    apply List.ext_getElem (by simp)
    intro i hi _
    simp only [List.length_map, List.length_range] at hi
    simp [hbyte i hi]
  · exact Or.inl rfl

end DiskImage
