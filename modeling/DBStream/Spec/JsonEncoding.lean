import DBStream.ForStd.JsonText
import DBStream.Native.JsonColumn
import Mathlib.Data.Nat.Bitwise
import Mathlib.Tactic.IntervalCases

/-!
# Values of binary JSON

The values of binary JSON but the doubles, their binary encoding, and the texts that denote them.
The encoding is a relation: where in a container its keys and values are is open.
-/

namespace DBStream.Native.DATA_SOURCE.JsonColumn

/-- The scalars: `null`, `false` or `true`, an integer, or the bytes of a value of a type of fields
(an opaque value). -/
inductive Scalar where
  | literal (b : Option Bool)
  | integer (n : Int)
  | field (field_type : UInt8) (value : List UInt8)

abbrev BinaryJson := Json Scalar

/-! ## The encoding -/

def literalCode : Option Bool → UInt8
  | none => 0
  | some true => 1
  | some false => 2

def integerTypes : List (UInt8 × Nat × Bool) :=
  [(0x5, 2, true), (0x6, 2, false), (0x7, 4, true), (0x8, 4, false), (0x9, 8, true), (0xA, 8, false)]

def InRange (w : Nat) (hasSign : Bool) (n : Int) : Prop :=
  if hasSign then -2 ^ (8 * w - 1) ≤ n ∧ n < 2 ^ (8 * w - 1) else 0 ≤ n ∧ n < 2 ^ (8 * w)

/-- A length in groups of seven bits, in `k + 1` bytes at most. -/
def varLengthFrom : (k n : Nat) → List UInt8
  | 0, n => [UInt8.ofNat n]
  | k + 1, n =>
    if n < 128 then [UInt8.ofNat n] else UInt8.ofNat (n % 128 + 128) :: varLengthFrom k (n / 128)

/-- A length below 2 ^ 32 in groups of seven bits. -/
def varLength (n : Nat) : List UInt8 := varLengthFrom 4 n

/-- The type code and the bytes of a scalar. -/
inductive ScalarEncodes : Scalar → UInt8 → List UInt8 → Prop
  | literal (b : Option Bool) : ScalarEncodes (.literal b) 0x4 [literalCode b]
  | integer {code : UInt8} {w : Nat} {hasSign : Bool} {n : Int} :
      (code, w, hasSign) ∈ integerTypes → InRange w hasSign n →
      ScalarEncodes (.integer n) code (LE.bytes w (n % 2 ^ (8 * w)).toNat)
  | field (field_type : UInt8) {value : List UInt8} : value.length < 2 ^ 32 →
      ScalarEncodes (.field field_type value) 0xF (field_type :: varLength value.length ++ value)

/-- The memory starts with these bytes, all of them within its size. -/
def StartsWith (body data : List UInt8) (size : Nat) : Prop := body <+: data ∧ body.length ≤ size

/-- The header of a container with offsets of `w` bytes: the number of entries, and the number of
bytes, which nothing reads. -/
structure Header (w n entrySize : Nat) (data : List UInt8) (size : Nat) : Prop where
  count : wordAt data 0 w = some n
  bytes : (wordAt data w w).isSome
  room : w * 2 + n * entrySize ≤ size

/-- The entry of a value at `p`: the value is in the entry or at an offset. -/
def EntryEncodes (value : UInt8 → List UInt8 → Nat → Prop) (w : Nat) (data : List UInt8)
    (size p : Nat) : Prop :=
  ∃ type offset, data[p]? = some type ∧ wordAt data (p + 1) w = some offset ∧
    if inlined w type then value type (data.drop (p + 1)) w
    else offset ≤ size ∧ value type (data.drop offset) (size - offset)

def KeyEncodes (key : List UInt8) (w : Nat) (data : List UInt8) (p : Nat) : Prop :=
  ∃ offset, wordAt data p w = some offset ∧ wordAt data (p + w) 2 = some key.length ∧
    bytesAt data offset key.length = some key

mutual
/-- The type code, and the memory from the value on with its size. -/
def Encodes : BinaryJson → UInt8 → List UInt8 → Nat → Prop
  | .scalar a, type, data, size =>
    ∃ body, ScalarEncodes a type body ∧ StartsWith body data size
  | .string s, type, data, size =>
    type = 0xC ∧ s.length < 2 ^ 32 ∧ StartsWith (varLength s.length ++ s) data size
  | .array xs, type, data, size =>
    ∃ w, (type, w) ∈ [((0x2 : UInt8), 2), (0x3, 4)] ∧ Header w xs.length (1 + w) data size ∧
      ElementsEncode xs w data size (w * 2) 0
  | .object ms, type, data, size =>
    ∃ w, (type, w) ∈ [((0x0 : UInt8), 2), (0x1, 4)] ∧
      Header w ms.length ((w + 2) + (1 + w)) data size ∧
      MembersEncode ms w data size (w * 2) (w * 2 + ms.length * (w + 2)) 0

/-- The entries from element `i` on. -/
def ElementsEncode : List BinaryJson → (w : Nat) → List UInt8 → (size values i : Nat) → Prop
  | [], _, _, _, _, _ => True
  | x :: xs, w, data, size, values, i =>
    EntryEncodes (Encodes x) w data size (values + i * (1 + w)) ∧
      ElementsEncode xs w data size values (i + 1)

def MembersEncode :
    List (List UInt8 × BinaryJson) → (w : Nat) → List UInt8 → (size keys values i : Nat) → Prop
  | [], _, _, _, _, _, _ => True
  | (k, x) :: ms, w, data, size, keys, values, i =>
    KeyEncodes k w data (keys + i * (w + 2)) ∧
      EntryEncodes (Encodes x) w data size (values + i * (1 + w)) ∧
      MembersEncode ms w data size keys values (i + 1)
end

/-- A value in the binary encoding, its type code first. -/
structure Encoding (v : BinaryJson) (bjson : List UInt8) (bjsonSize : Nat) : Prop where
  size_lt : bjsonSize < 2 ^ 64
  size_pos : 1 ≤ bjsonSize
  encodes : ∃ type, bjson[0]? = some type ∧ Encodes v type (bjson.drop 1) (bjsonSize - 1)

/-! ## The texts -/

def literalText : Option Bool → List UInt8
  | none => [0x6e, 0x75, 0x6c, 0x6c]
  | some true => [0x74, 0x72, 0x75, 0x65]
  | some false => [0x66, 0x61, 0x6c, 0x73, 0x65]

/-- The texts of a scalar.  The value of a field is a number, as a decimal is, or a string, as a
time is: `meaning` says which. -/
inductive ScalarText (meaning : UInt8 → List UInt8 → ℚ ⊕ List UInt8) : Scalar → List UInt8 → Prop
  | literal (b : Option Bool) : ScalarText meaning (.literal b) (literalText b)
  | integer {n : Int} {t : List UInt8} : Json.NumberText n t → ScalarText meaning (.integer n) t
  | number {field_type : UInt8} {value t : List UInt8} {q : ℚ} :
      meaning field_type value = .inl q → Json.NumberText q t →
      ScalarText meaning (.field field_type value) t
  | string {field_type : UInt8} {value t s : List UInt8} :
      meaning field_type value = .inr s → Json.StringText s t →
      ScalarText meaning (.field field_type value) t

private theorem zero_notMem_literalText (b : Option Bool) : 0 ∉ literalText b := by
  cases b with
  | none => decide
  | some b => cases b <;> decide

theorem visible_literalText (b : Option Bool) :
    Json.visible (literalText b) = (literalText b).length := by
  cases b with
  | none => rfl
  | some b => cases b <;> rfl

theorem ScalarText.zero_notMem {meaning : UInt8 → List UInt8 → ℚ ⊕ List UInt8} (a : Scalar)
    (t : List UInt8) (h : ScalarText meaning a t) : 0 ∉ t := by
  cases h with
  | literal b => exact zero_notMem_literalText b
  | integer h => exact h.zero_notMem
  | number _ h => exact h.zero_notMem
  | string _ h => exact h.zero_notMem

/-- The bytes of a literal; nothing is said of the other scalars. -/
def scalarSize : Scalar → Nat
  | .literal b => (literalText b).length
  | .integer _ => 0
  | .field _ _ => 0

theorem ScalarText.size_le {meaning : UInt8 → List UInt8 → ℚ ⊕ List UInt8} (a : Scalar)
    (t : List UInt8) (h : ScalarText meaning a t) : scalarSize a ≤ Json.visible t := by
  cases h with
  | literal b => exact Nat.le_of_eq (visible_literalText b).symm
  | integer _ | number _ _ | string _ _ => exact Nat.zero_le _

/-! ## Reads of the encoding -/

section
variable {data body : List UInt8} {size : Nat}

theorem bytesAt_of_append {l : List UInt8} (h : l ++ body <+: data) :
    bytesAt data l.length body.length = some body := by
  obtain ⟨r, rfl⟩ := h
  rw [bytesAt, if_pos (by simp), List.append_assoc]
  exact congrArg some (List.slice_append_mid r rfl rfl)

theorem getElem?_of_prefix_drop {b : UInt8} {l : List UInt8} {i : Nat}
    (h : b :: l <+: data.drop i) : data[i]? = some b := by
  obtain ⟨r, hr⟩ := h
  rw [← List.head?_drop, ← hr]
  rfl

private theorem shifted_eq (b : UInt8) {i : Nat} (hi : i < 4) :
    shifted b i = (b.toNat % 128) <<< (7 * i) := by
  have hmod : (b &&& 0x7f).toNat = b.toNat % 128 := by
    exact Nat.and_two_pow_sub_one_eq_mod b.toNat 7
  rw [shifted, hmod]
  have hlt : b.toNat % 128 < 128 := Nat.mod_lt _ (by omega)
  generalize b.toNat % 128 = c at hlt
  have h28 : c <<< (7 * i) < 2 ^ 28 := by
    interval_cases i <;> omega
  rw [Nat.mod_eq_of_lt (Nat.lt_trans h28 (by norm_num))]
  exact if_pos (Nat.lt_trans h28 (by norm_num))

theorem or_shifted {b : UInt8} {i len : Nat} (hi : i < 4) (hlen : len < 2 ^ (7 * i)) :
    len ||| shifted b i = len + b.toNat % 128 * 2 ^ (7 * i) := by
  rw [shifted_eq b hi, Nat.or_comm, ← Nat.shiftLeft_add_eq_or_of_lt hlen, Nat.shiftLeft_eq,
    Nat.add_comm]

theorem and_0x80_eq_zero (n : Nat) (hn : n < 256) : UInt8.ofNat n &&& 0x80 = 0 ↔ n < 128 := by
  rw [← UInt8.toNat_inj, UInt8.toNat_and, UInt8.toNat_ofNat', Nat.mod_eq_of_lt hn]
  show n &&& 2 ^ 7 = 0 ↔ n < 128
  rw [Nat.and_two_pow]
  cases hbit : n.testBit 7 <;> simp [Nat.testBit_eq_decide_div_mod_eq] at hbit ⊢ <;> omega

theorem shifted_last : ∀ n < 16, shifted (UInt8.ofNat n) 4 =
    if n < 8 then n * 2 ^ 28 else n * 2 ^ 28 + (2 ^ 64 - 2 ^ 32) := by decide +kernel

private theorem or_shifted_last {len n : Nat} (hlen : len < 2 ^ 28) (hn : n < 16) :
    let r := len ||| shifted (UInt8.ofNat n) 4
    if n < 8 then r = len + n * 2 ^ 28 else 0xffffffff < r := by
  intro r
  simp only [r, shifted_last n hn]
  split
  · rw [Nat.or_comm, ← Nat.shiftLeft_eq, ← Nat.shiftLeft_add_eq_or_of_lt hlen, Nat.shiftLeft_eq,
      Nat.add_comm]
  · exact Nat.lt_of_lt_of_le (by omega) Nat.right_le_or

theorem varLengthFrom_succ (k n : Nat) : varLengthFrom (k + 1) n =
    if n < 128 then [UInt8.ofNat n]
    else UInt8.ofNat (n % 128 + 128) :: varLengthFrom k (n / 128) := rfl

theorem length_varLengthFrom (k n : Nat) : (varLengthFrom k n).length ≤ k + 1 := by
  induction k generalizing n with
  | zero => simp [varLengthFrom]
  | succ k ih =>
    rw [varLengthFrom_succ]
    split
    · simp
    · simpa using ih (n / 128)

theorem length_varLengthFrom_pos (k n : Nat) : 0 < (varLengthFrom k n).length := by
  cases k with
  | zero => simp [varLengthFrom]
  | succ k =>
    rw [varLengthFrom_succ]
    split <;> simp

/-- The reader at byte `i`, with the groups before it in `len`: a length from 2 ^ 31 on is an
error. -/
theorem readLength_varLengthFrom {k i todo n len : Nat} (hk : i + k = 4) (hlen : len < 2 ^ (7 * i))
    (hn : len + n * 2 ^ (7 * i) < 2 ^ 32) (hdata : varLengthFrom k n <+: data.drop i)
    (htodo : (varLengthFrom k n).length ≤ todo) :
    readLength data todo i len = some (if len + n * 2 ^ (7 * i) < 2 ^ 31 then
      some (len + n * 2 ^ (7 * i), i + (varLengthFrom k n).length) else none) := by
  induction k generalizing i todo n len with
  | zero =>
    obtain rfl : i = 4 := by omega
    obtain ⟨todo, rfl⟩ := Nat.exists_eq_add_of_le' (show 1 ≤ todo from htodo)
    have hbyte : data[4]? = some (UInt8.ofNat n) := getElem?_of_prefix_drop hdata
    have hn16 : n < 16 := by omega
    have hor := or_shifted_last (n := n) (show len < 2 ^ 28 from hlen) hn16
    have hlast : UInt8.ofNat n &&& 0x80 = 0 := (and_0x80_eq_zero n (by omega)).mpr (by omega)
    simp only [readLength, hbyte, Option.bind_eq_bind, Option.bind_some, hlast, if_true]
    by_cases h8 : n < 8
    · rw [if_pos h8] at hor
      rw [hor, if_neg (by omega), if_pos (by omega)]
      simp [varLengthFrom]
    · rw [if_neg h8] at hor
      rw [if_pos hor, if_neg (by omega)]
      rfl
  | succ k ih =>
    have hi : i < 4 := by omega
    have hpos := length_varLengthFrom_pos (k + 1) n
    obtain ⟨todo, rfl⟩ := Nat.exists_eq_add_of_le' (show 1 ≤ todo by omega)
    have hpow : 2 ^ (7 * (i + 1)) = 128 * 2 ^ (7 * i) := by rw [Nat.mul_add, Nat.pow_add]; omega
    rw [varLengthFrom_succ] at hdata htodo ⊢
    split at hdata
    next hsmall =>
      have hbyte : data[i]? = some (UInt8.ofNat n) := getElem?_of_prefix_drop hdata
      have hend : UInt8.ofNat n &&& 0x80 = 0 := (and_0x80_eq_zero n (by omega)).mpr hsmall
      have hor : len ||| shifted (UInt8.ofNat n) i = len + n * 2 ^ (7 * i) := by
        rw [or_shifted hi hlen, UInt8.toNat_ofNat', Nat.mod_mod_of_dvd _ (by norm_num),
          Nat.mod_eq_of_lt hsmall]
      have h31 : len + n * 2 ^ (7 * i) < 2 ^ 31 := by
        have h28 : 2 ^ (7 * (i + 1)) ≤ 2 ^ 28 := Nat.pow_le_pow_right (by omega) (by omega)
        have hmul : n * 2 ^ (7 * i) ≤ 127 * 2 ^ (7 * i) := Nat.mul_le_mul_right _ (by omega)
        omega
      simp only [readLength, hbyte, Option.bind_eq_bind, Option.bind_some, hend, if_true, hor,
        if_pos hsmall]
      rw [if_neg (by omega), if_pos h31]
      rfl
    next hlarge =>
      -- a group with its top bit set: the rest is the length without the group
      have hbyte : data[i]? = some (UInt8.ofNat (n % 128 + 128)) := getElem?_of_prefix_drop hdata
      have hend : ¬UInt8.ofNat (n % 128 + 128) &&& 0x80 = 0 := fun h =>
        absurd ((and_0x80_eq_zero _ (by omega)).mp h) (by omega)
      have hor : len ||| shifted (UInt8.ofNat (n % 128 + 128)) i = len + n % 128 * 2 ^ (7 * i) := by
        rw [or_shifted hi hlen, UInt8.toNat_ofNat', Nat.mod_eq_of_lt (by omega : _ < 2 ^ 8)]
        simp
      have hsum : len + n % 128 * 2 ^ (7 * i) + n / 128 * 2 ^ (7 * (i + 1)) =
          len + n * 2 ^ (7 * i) := by
        rw [hpow, ← Nat.mul_assoc, Nat.add_assoc, ← Nat.add_mul]
        congr 2
        omega
      have hrest : varLengthFrom k (n / 128) <+: data.drop (i + 1) := by
        obtain ⟨r, hr⟩ := hdata
        refine ⟨r, ?_⟩
        rw [← List.drop_drop, ← hr]
        simp
      have hlen' : len + n % 128 * 2 ^ (7 * i) < 2 ^ (7 * (i + 1)) := by
        have hmul : n % 128 * 2 ^ (7 * i) ≤ 127 * 2 ^ (7 * i) := Nat.mul_le_mul_right _ (by omega)
        omega
      rw [if_neg hlarge] at htodo ⊢
      simp only [readLength, hbyte, Option.bind_eq_bind, Option.bind_some, if_neg hend, hor]
      rw [ih (by omega) hlen' (by omega) hrest (by simpa using htodo), hsum, List.length_cons,
        Nat.add_assoc i, Nat.add_comm 1]

theorem read_variable_length_varLength {n : Nat} (hn : n < 2 ^ 32)
    (h : StartsWith (varLength n) data size) :
    read_variable_length data size =
      some (if n < 2 ^ 31 then some (n, (varLength n).length) else none) := by
  have hlen : (varLength n).length ≤ min size 5 :=
    Nat.le_min.mpr ⟨h.2, length_varLengthFrom 4 n⟩
  have hread := readLength_varLengthFrom (k := 4) (i := 0) rfl (show 0 < 2 ^ (7 * 0) by omega)
    (by omega) (by simpa [varLength] using h.1) hlen
  simpa [read_variable_length, varLength] using hread

end

end DBStream.Native.DATA_SOURCE.JsonColumn
