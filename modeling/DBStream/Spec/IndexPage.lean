import DBStream.Native.SolidIndex
import Mathlib.Data.Nat.Bitwise

/-!
# Reading a page of an index

A page is its head and what is written behind it.  What stands at a place is read back by the
operations of `SolidIndex` when the page is split there.
-/

namespace DBStream.Native

namespace SolidIndex

variable {d l r : List UInt8} {pos n : Nat}

theorem length_words (ids : List Nat) :
    (AppendingIndex.words ids).length = 4 * ids.length := by
  induction ids with
  | nil => rfl
  | cons id ids ih =>
    rw [AppendingIndex.words, List.flatMap_cons, List.length_append, LE.length_bytes,
      List.length_cons]
    rw [AppendingIndex.words] at ih
    omega

theorem pointer_append (hl : l.length = pos) (r : List UInt8) : pointer (l ++ r) pos = .ok r := by
  unfold pointer
  rw [if_pos (by rw [List.length_append]; omega), List.drop_left' hl]

theorem word_append (hl : l.length = pos) (hn : n < 2 ^ 32) (r : List UInt8) :
    word (l ++ (LE.bytes 4 n ++ r)) pos = .ok n := by
  unfold word
  rw [if_pos (by simp only [List.length_append, LE.length_bytes]; omega),
    List.slice_append_mid r hl (LE.length_bytes 4 n), LE.nat_bytes_of_lt (by simpa using hn)]

theorem wordsAt_append {ids : List Nat} (hl : l.length = pos) (hids : ∀ id ∈ ids, id < 2 ^ 32)
    (r : List UInt8) :
    wordsAt (l ++ (AppendingIndex.words ids ++ r)) pos ids.length = .ok ids := by
  induction ids generalizing l pos with
  | nil => rfl
  | cons id ids ih =>
    have hsplit : l ++ (AppendingIndex.words (id :: ids) ++ r) =
        l ++ (LE.bytes 4 id ++ (AppendingIndex.words ids ++ r)) := by
      simp [AppendingIndex.words]
    have hsplit' : l ++ (LE.bytes 4 id ++ (AppendingIndex.words ids ++ r)) =
        l ++ LE.bytes 4 id ++ (AppendingIndex.words ids ++ r) := by
      rw [List.append_assoc]
    rw [hsplit, List.length_cons, wordsAt, word_append hl (hids id List.mem_cons_self),
      Exec.ok_bind, hsplit', ih (by simp [hl]) fun i hi => hids i (List.mem_cons_of_mem id hi)]
    rfl

/-! ## The head -/

variable (size keyCount flag len : Nat) (t : ColumnType) (rest : List UInt8)

@[simp] theorem length_solidIndexHead :
    (AppendingIndex.solidIndexHead size keyCount t flag len).length =
      AppendingIndex.solidIndexHeadSize := by
  simp [AppendingIndex.solidIndexHead, AppendingIndex.solidIndexHeadSize]

theorem getKeyCount_head (hn : keyCount < 2 ^ 32) :
    getKeyCount (AppendingIndex.solidIndexHead size keyCount t flag len ++ rest) = keyCount := by
  unfold getKeyCount AppendingIndex.solidIndexHead
  rw [List.append_assoc, List.append_assoc,
    List.slice_append_mid _ (LE.length_bytes 4 size) (LE.length_bytes 4 keyCount),
    LE.nat_bytes_of_lt (by simpa using hn)]

theorem flagFixed_head (hflag : flag < 2 ^ 8) :
    flagFixed (AppendingIndex.solidIndexHead size keyCount t flag len ++ rest) =
      flag.testBit 0 := by
  have hsplit : AppendingIndex.solidIndexHead size keyCount t flag len ++ rest =
      (LE.bytes 4 size ++ (LE.bytes 4 keyCount ++ LE.bytes 1 t.code)) ++ (LE.bytes 1 flag ++
        (LE.bytes 2 len ++ rest)) := by
    simp [AppendingIndex.solidIndexHead]
  unfold flagFixed
  rw [hsplit, List.slice_append_mid _ (by simp) (LE.length_bytes 1 flag),
    LE.nat_bytes_of_lt (by simpa using hflag)]

theorem length_head (hlen : len < 2 ^ 15) :
    length (AppendingIndex.solidIndexHead size keyCount t flag len ++ rest) = len := by
  have hsplit : AppendingIndex.solidIndexHead size keyCount t flag len ++ rest =
      (LE.bytes 4 size ++ (LE.bytes 4 keyCount ++ (LE.bytes 1 t.code ++ LE.bytes 1 flag))) ++
        (LE.bytes 2 len ++ rest) := by
    simp [AppendingIndex.solidIndexHead]
  unfold length
  rw [hsplit, List.slice_append_mid _ (by simp) (LE.length_bytes 2 len),
    LE.nat_bytes_of_lt (by omega)]
  rw [if_neg (by omega)]

/-! ## The word behind a key -/

theorem and_high_byte {x : Nat} (hx : x < 2 ^ 32) : x &&& 0xff000000 = 0 ↔ x < 2 ^ 24 := by
  have hdiv : (x &&& 0xff000000) / 2 ^ 24 = x / 2 ^ 24 := by
    rw [Nat.and_div_two_pow, show 0xff000000 / 2 ^ 24 = 2 ^ 8 - 1 by norm_num,
      Nat.and_two_pow_sub_one_eq_mod, Nat.mod_eq_of_lt (by omega)]
  have hmod : (x &&& 0xff000000) % 2 ^ 24 = 0 := by
    rw [Nat.and_mod_two_pow, show 0xff000000 % 2 ^ 24 = 0 by norm_num, Nat.and_zero]
  constructor
  · intro h
    omega
  · intro h
    omega

theorem and_top_bit {x : Nat} (hx : x < 2 ^ 32) : x &&& 0x80000000 = 0 ↔ x < 2 ^ 31 := by
  rw [show 0x80000000 = 2 ^ 31 by norm_num, Nat.and_two_pow, Nat.testBit_eq_decide_div_mod_eq]
  by_cases h : x / 2 ^ 31 % 2 = 1
  · rw [decide_eq_true h]
    constructor
    · intro h0
      exact absurd h0 (by decide)
    · intro hlt
      omega
  · rw [decide_eq_false h]
    constructor
    · intro _
      omega
    · intro _
      rfl

theorem and_low_bytes (x : Nat) : x &&& 0x00ffffff = x % 2 ^ 24 := by
  rw [show 0x00ffffff = 2 ^ 24 - 1 by norm_num, Nat.and_two_pow_sub_one_eq_mod]

end SolidIndex

end DBStream.Native
