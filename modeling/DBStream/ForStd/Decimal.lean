import Mathlib.Algebra.Group.Nat.Defs
import Mathlib.Data.List.Basic

/-!
# Decimal text

The decimal text of a number as bytes, and its last digits with zeros in front.  A decimal text is
told from what follows it if that does not begin with a digit.
-/

def digitByte (d : Nat) : UInt8 := UInt8.ofNat (0x30 + d)

/-- The last `w` digits of `n`. -/
def lastDigits : Nat → Nat → List UInt8
  | 0, _ => []
  | w + 1, n => lastDigits w (n / 10) ++ [digitByte (n % 10)]

def decimal (n : Nat) : List UInt8 := (Nat.toDigits 10 n).map fun c => UInt8.ofNat c.toNat

/-- A number with its sign. -/
def signedDecimal (n : Int) : List UInt8 :=
  if n < 0 then 0x2d :: decimal n.natAbs else decimal n.natAbs

def IsDigit (b : UInt8) : Prop := 0x30 ≤ b.toNat ∧ b.toNat ≤ 0x39

instance (b : UInt8) : Decidable (IsDigit b) := inferInstanceAs (Decidable (_ ∧ _))

theorem toNat_digitByte {d : Nat} (h : d < 10) : (digitByte d).toNat = 0x30 + d := by
  rw [digitByte, UInt8.toNat_ofNat']
  omega

theorem isDigit_digitByte {d : Nat} (h : d < 10) : IsDigit (digitByte d) := by
  rw [IsDigit, toNat_digitByte h]
  omega

theorem digitByte_inj {d e : Nat} (hd : d < 10) (he : e < 10) (h : digitByte d = digitByte e) :
    d = e := by
  have := congrArg UInt8.toNat h
  rw [toNat_digitByte hd, toNat_digitByte he] at this
  omega

/-! ## Last digits -/

@[simp] theorem length_lastDigits (w n : Nat) : (lastDigits w n).length = w := by
  induction w generalizing n with
  | zero => rfl
  | succ w ih => rw [lastDigits, List.length_append, ih, List.length_singleton]

theorem isDigit_of_mem_lastDigits {w n : Nat} {b : UInt8} (h : b ∈ lastDigits w n) : IsDigit b := by
  induction w generalizing n with
  | zero => cases h
  | succ w ih =>
    rcases List.mem_append.mp h with h | h
    · exact ih h
    · rw [List.mem_singleton.mp h]
      exact isDigit_digitByte (Nat.mod_lt _ (by omega))

theorem lastDigits_inj {w m n : Nat} (hm : m < 10 ^ w) (hn : n < 10 ^ w)
    (h : lastDigits w m = lastDigits w n) : m = n := by
  induction w generalizing m n with
  | zero => omega
  | succ w ih =>
    obtain ⟨hfront, hlast⟩ := List.append_inj' h rfl
    have hlast' := digitByte_inj (Nat.mod_lt _ (by omega)) (Nat.mod_lt _ (by omega))
      (List.singleton_inj.mp hlast)
    have := ih (by omega) (by omega) hfront
    omega

theorem lastDigits_mod (w n : Nat) : lastDigits w (n % 10 ^ w) = lastDigits w n := by
  induction w generalizing n with
  | zero => rfl
  | succ w ih =>
    rw [lastDigits, Nat.pow_succ', Nat.mod_mul_right_div_self, ih,
      Nat.mod_mod_of_dvd _ (Nat.dvd_mul_right 10 _)]
    rfl

theorem lastDigits_add_split (w k n : Nat) :
    lastDigits (w + k) n = lastDigits w (n / 10 ^ k) ++ lastDigits k n := by
  induction k generalizing n with
  | zero => simp [lastDigits]
  | succ k ih =>
    rw [← Nat.add_assoc, lastDigits, ih, lastDigits, Nat.div_div_eq_div_mul, ← Nat.pow_succ',
      List.append_assoc]

/-! ## Decimal text -/

theorem decimal_eq (n : Nat) :
    decimal n = if n < 10 then [digitByte n] else decimal (n / 10) ++ [digitByte (n % 10)] := by
  rw [decimal, Nat.toDigits_eq_if (by omega)]
  split
  · rw [List.map_singleton, Nat.toNat_digitChar_of_lt_ten ‹_›, digitByte]
  · rw [List.map_append, List.map_singleton,
      Nat.toNat_digitChar_of_lt_ten (Nat.mod_lt _ (by omega)), decimal, digitByte]

theorem decimal_eq_lastDigits {w n : Nat} (hle : 10 ^ w ≤ n ∨ w = 0) (hlt : n < 10 ^ (w + 1)) :
    decimal n = lastDigits (w + 1) n := by
  induction w generalizing n with
  | zero => rw [decimal_eq, if_pos (by omega), lastDigits, Nat.mod_eq_of_lt (by omega), lastDigits]; rfl
  | succ w ih =>
    rw [decimal_eq, if_neg (by omega), lastDigits, ih (by omega) (by omega)]

theorem decimal_split {w n : Nat} (h : 10 ^ w ≤ n) :
    decimal n = decimal (n / 10 ^ w) ++ lastDigits w n := by
  induction w generalizing n with
  | zero => simp [lastDigits]
  | succ w ih =>
    have hpow : 0 < 10 ^ w := Nat.pow_pos (by omega)
    rw [decimal_eq, if_neg (by omega), lastDigits, ih (by omega), Nat.div_div_eq_div_mul,
      ← Nat.pow_succ', List.append_assoc]

theorem decimal_ne_nil (n : Nat) : decimal n ≠ [] := by
  rw [decimal_eq]
  split <;> simp

theorem lastDigits_eq_decimal {w n : Nat} (hw : 0 < w) (h : n < 10 ^ w) :
    (decimal n).length ≤ w ∧
      lastDigits w n = List.replicate (w - (decimal n).length) 0x30 ++ decimal n := by
  induction w generalizing n with
  | zero => omega
  | succ w ih =>
    rw [decimal_eq, lastDigits]
    split
    · have hzeros : ∀ k, lastDigits k 0 = List.replicate k 0x30 := by
        intro k
        induction k with
        | zero => rfl
        | succ k ih =>
          rw [lastDigits, ih, List.replicate_succ']
          rfl
      rw [Nat.div_eq_of_lt ‹_›, hzeros, Nat.mod_eq_of_lt ‹_›]
      exact ⟨by simp, rfl⟩
    · have hpos : 0 < w := by
        by_contra hw
        obtain rfl : w = 0 := by omega
        omega
      obtain ⟨hlength, heq⟩ := ih hpos (n := n / 10) (by omega)
      rw [heq, List.length_append, List.length_singleton, Nat.add_sub_add_right, List.append_assoc]
      exact ⟨by omega, rfl⟩

theorem decimal_head_ne {n : Nat} (h : 0 < n) : (decimal n).head? ≠ some 0x30 := by
  induction n using Nat.strongRecOn with
  | _ n ih =>
    rw [decimal_eq]
    split
    · intro heq
      have := congrArg UInt8.toNat (Option.some.inj heq)
      rw [toNat_digitByte ‹_›] at this
      exact absurd this (by simp; omega)
    · rw [List.head?_append_of_ne_nil _ (decimal_ne_nil _)]
      exact ih (n / 10) (by omega) (by omega)

theorem isDigit_of_mem_decimal {n : Nat} {b : UInt8} (h : b ∈ decimal n) : IsDigit b := by
  induction n using Nat.strongRecOn with
  | _ n ih =>
    rw [decimal_eq] at h
    split at h
    · rw [List.mem_singleton.mp h]
      exact isDigit_digitByte ‹_›
    · rcases List.mem_append.mp h with h | h
      · exact ih (n / 10) (by omega) h
      · rw [List.mem_singleton.mp h]
        exact isDigit_digitByte (Nat.mod_lt _ (by omega))

theorem decimal_inj {m n : Nat} (h : decimal m = decimal n) : m = n := by
  induction m using Nat.strongRecOn generalizing n with
  | _ m ih =>
    have hm := decimal_ne_nil (m / 10)
    have hn := decimal_ne_nil (n / 10)
    rw [decimal_eq, decimal_eq n] at h
    split at h <;> split at h
    · exact digitByte_inj ‹_› ‹_› (List.singleton_inj.mp h)
    · exact absurd (congrArg List.length h) (by simp [hn])
    · exact absurd (congrArg List.length h) (by simp [hm])
    · obtain ⟨hfront, hlast⟩ := List.append_inj' h rfl
      have hlast' := digitByte_inj (Nat.mod_lt _ (by omega)) (Nat.mod_lt _ (by omega))
        (List.singleton_inj.mp hlast)
      have := ih (m / 10) (by omega) hfront
      omega

theorem decimal_append_inj {m n : Nat} {r s : List UInt8} (hr : ∀ b ∈ r.head?, ¬ IsDigit b)
    (hs : ∀ b ∈ s.head?, ¬ IsDigit b) (h : decimal m ++ r = decimal n ++ s) : m = n ∧ r = s := by
  have htake : ∀ (k : Nat) (l : List UInt8), (∀ b ∈ l.head?, ¬ IsDigit b) →
      (decimal k ++ l).takeWhile (fun b => decide (IsDigit b)) = decimal k := by
    intro k l hl
    rw [List.takeWhile_append_of_pos fun b hb => decide_eq_true (isDigit_of_mem_decimal hb)]
    cases l with
    | nil => simp
    | cons b l => simp [hl b rfl]
  have heq := congrArg (List.takeWhile fun b => decide (IsDigit b)) h
  rw [htake m r hr, htake n s hs] at heq
  obtain rfl := decimal_inj heq
  exact ⟨rfl, List.append_cancel_left h⟩

theorem signedDecimal_append_inj {m n : Int} {r s : List UInt8} (hr : ∀ b ∈ r.head?, ¬ IsDigit b)
    (hs : ∀ b ∈ s.head?, ¬ IsDigit b) (h : signedDecimal m ++ r = signedDecimal n ++ s) :
    m = n ∧ r = s := by
  have hsign : ∀ (k : Nat) (l l' : List UInt8), decimal k ++ l ≠ 0x2d :: l' := by
    intro k l l' heq
    obtain ⟨b, t, hb⟩ := List.exists_cons_of_ne_nil (decimal_ne_nil k)
    have hdigit := isDigit_of_mem_decimal (hb ▸ List.mem_cons_self : b ∈ decimal k)
    rw [hb] at heq
    rw [(List.cons.inj heq).1] at hdigit
    exact absurd hdigit (by decide)
  rw [signedDecimal, signedDecimal] at h
  split at h <;> split at h
  · obtain ⟨heq, hrest⟩ := decimal_append_inj hr hs (List.cons.inj h).2
    exact ⟨by omega, hrest⟩
  · exact absurd h.symm (hsign _ _ _)
  · exact absurd h (hsign _ _ _)
  · obtain ⟨heq, hrest⟩ := decimal_append_inj hr hs h
    exact ⟨by omega, hrest⟩

theorem lastDigits_append_inj {w m n : Nat} {r s : List UInt8} (hm : m < 10 ^ w) (hn : n < 10 ^ w)
    (h : lastDigits w m ++ r = lastDigits w n ++ s) : m = n ∧ r = s := by
  obtain ⟨hdigits, hrest⟩ := List.append_inj h (by simp)
  exact ⟨lastDigits_inj hm hn hdigits, hrest⟩
