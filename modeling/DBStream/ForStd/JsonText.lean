import Mathlib.Algebra.Field.Rat
import Mathlib.Algebra.Order.BigOperators.Group.List

/-!
# The text of JSON

JSON values over scalars of any type, the texts that denote them, and two facts about every such
text: it has no byte 0, and it has at least a number of visible bytes that depends on the value only.
The order of the members of an object is no part of its value.
-/

/-- A JSON value.  What the scalars are is open; strings and keys are the bytes of their UTF-8. -/
inductive Json (α : Type) where
  | scalar (a : α)
  | string (s : List UInt8)
  | array (xs : List (Json α))
  | object (ms : List (List UInt8 × Json α))

namespace Json

/-! ## Strings -/

/-- The number a hexadecimal digit stands for. -/
def hexDigit (d : UInt8) : Option Nat :=
  if 0x30 ≤ d ∧ d ≤ 0x39 then some (d.toNat - 0x30)
  else if 0x61 ≤ d ∧ d ≤ 0x66 then some (d.toNat - 0x57)
  else if 0x41 ≤ d ∧ d ≤ 0x46 then some (d.toNat - 0x37)
  else none

/-- The number four hexadecimal digits stand for. -/
def hexWord : List UInt8 → Option Nat
  | [a, b, c, d] => do
    return (((← hexDigit a) * 16 + (← hexDigit b)) * 16 + (← hexDigit c)) * 16 + (← hexDigit d)
  | _ => none

/-- The letters behind a backslash, and the characters they stand for. -/
def escapes : List (UInt8 × UInt8) :=
  [(0x22, 0x22), (0x5c, 0x5c), (0x2f, 0x2f), (0x62, 0x08), (0x66, 0x0c), (0x6e, 0x0a), (0x72, 0x0d),
    (0x74, 0x09)]

/-- A piece of a string, and a spelling of it. -/
inductive CharText : List UInt8 → List UInt8 → Prop
  /-- Anything but the control characters, the quotation mark and the backslash. -/
  | plain {b : UInt8} (hctl : 0x20 ≤ b) (hquote : b ≠ 0x22) (hback : b ≠ 0x5c) : CharText [b] [b]
  | escape {e c : UInt8} (h : (e, c) ∈ escapes) : CharText [c] [0x5c, e]
  | unicode {ds : List UInt8} {n : Nat} (h : hexWord ds = some n) (hvalid : n.isValidChar) :
      CharText (String.utf8EncodeChar (Char.ofNat n)) (0x5c :: 0x75 :: ds)
  | surrogates {hi lo : List UInt8} {n k : Nat} (hhi : hexWord hi = some (0xd800 + n))
      (hlo : hexWord lo = some (0xdc00 + k)) (hn : n < 0x400) (hk : k < 0x400) :
      CharText (String.utf8EncodeChar (Char.ofNat (0x10000 + n * 0x400 + k)))
        (0x5c :: 0x75 :: hi ++ 0x5c :: 0x75 :: lo)

/-- A string, and a spelling of it without the quotation marks. -/
inductive CharsText : List UInt8 → List UInt8 → Prop
  | nil : CharsText [] []
  | cons {c s t u : List UInt8} : CharText c t → CharsText s u → CharsText (c ++ s) (t ++ u)

/-- A string, and a text that denotes it. -/
inductive StringText (s : List UInt8) : List UInt8 → Prop
  | quoted {t : List UInt8} : CharsText s t → StringText s (0x22 :: t ++ [0x22])

/-! ## Numbers -/

/-- Decimal digits. -/
def Digits (ds : List UInt8) : Prop := ds ≠ [] ∧ ∀ d ∈ ds, 0x30 ≤ d ∧ d ≤ 0x39

/-- The number decimal digits stand for. -/
def digitsNat (ds : List UInt8) : Nat := ds.foldl (fun n d => 10 * n + (d.toNat - 0x30)) 0

/-- The digits behind the decimal point, and their text. -/
inductive FractionText : List UInt8 → List UInt8 → Prop
  | absent : FractionText [] []
  | point {ds : List UInt8} : Digits ds → FractionText ds (0x2e :: ds)

/-- An exponent, and a text of it. -/
inductive ExponentText : Int → List UInt8 → Prop
  | absent : ExponentText 0 []
  | plain {e : UInt8} {ds : List UInt8} : e = 0x65 ∨ e = 0x45 → Digits ds →
      ExponentText (digitsNat ds) (e :: ds)
  | plus {e : UInt8} {ds : List UInt8} : e = 0x65 ∨ e = 0x45 → Digits ds →
      ExponentText (digitsNat ds) (e :: 0x2b :: ds)
  | minus {e : UInt8} {ds : List UInt8} : e = 0x65 ∨ e = 0x45 → Digits ds →
      ExponentText (-digitsNat ds) (e :: 0x2d :: ds)

/-- A number without a sign, and a text that denotes it: no digit follows a zero in front. -/
inductive MagnitudeText : ℚ → List UInt8 → Prop
  | mk {ds fs ft et : List UInt8} {e : Int} : Digits ds → (ds.head? = some 0x30 → ds = [0x30]) →
      FractionText fs ft → ExponentText e et →
      MagnitudeText (digitsNat (ds ++ fs) * 10 ^ (e - fs.length)) (ds ++ ft ++ et)

/-- A number, and a text that denotes it. -/
inductive NumberText : ℚ → List UInt8 → Prop
  | plus {q : ℚ} {t : List UInt8} : MagnitudeText q t → NumberText q t
  | minus {q : ℚ} {t : List UInt8} : MagnitudeText q t → NumberText (-q) (0x2d :: t)

/-! ## Values -/

/-- White space. -/
def Blank (w : List UInt8) : Prop := ∀ b ∈ w, b ∈ [(0x20 : UInt8), 0x09, 0x0a, 0x0d]

section
variable {α : Type} (leaf : α → List UInt8 → Prop)

mutual
/-- A value with its members in this order, and a text that denotes it. -/
inductive Spells : Json α → List UInt8 → Prop
  | scalar {a : α} {t : List UInt8} : leaf a t → Spells (.scalar a) t
  | string {s t : List UInt8} : StringText s t → Spells (.string s) t
  | array {xs : List (Json α)} {t : List UInt8} : Elements xs t →
      Spells (.array xs) (0x5b :: t ++ [0x5d])
  | object {ms : List (List UInt8 × Json α)} {t : List UInt8} : Members ms t →
      Spells (.object ms) (0x7b :: t ++ [0x7d])

/-- What is between the brackets of an array. -/
inductive Elements : List (Json α) → List UInt8 → Prop
  | none {w : List UInt8} : Blank w → Elements [] w
  | one {x : Json α} {w t w' : List UInt8} : Blank w → Spells x t → Blank w' →
      Elements [x] (w ++ t ++ w')
  | more {x y : Json α} {xs : List (Json α)} {w t w' r : List UInt8} : Blank w → Spells x t →
      Blank w' → Elements (y :: xs) r → Elements (x :: y :: xs) (w ++ t ++ w' ++ 0x2c :: r)

/-- What is between the braces of an object. -/
inductive Members : List (List UInt8 × Json α) → List UInt8 → Prop
  | none {w : List UInt8} : Blank w → Members [] w
  | one {m : List UInt8 × Json α} {t : List UInt8} : Member m t → Members [m] t
  | more {m m' : List UInt8 × Json α} {ms : List (List UInt8 × Json α)} {t r : List UInt8} :
      Member m t → Members (m' :: ms) r → Members (m :: m' :: ms) (t ++ 0x2c :: r)

/-- A key and its value. -/
inductive Member : List UInt8 × Json α → List UInt8 → Prop
  | pair {k : List UInt8} {x : Json α} {w kt w' v t v' : List UInt8} : Blank w → StringText k kt →
      Blank w' → Blank v → Spells x t → Blank v' →
      Member (k, x) (w ++ kt ++ w' ++ 0x3a :: (v ++ t ++ v'))
end

end

/-- The values that differ in the order of members of objects only. -/
inductive Reordered {α : Type} : Json α → Json α → Prop
  | refl (v : Json α) : Reordered v v
  | trans {v v' v'' : Json α} : Reordered v v' → Reordered v' v'' → Reordered v v''
  | members {ms ms' : List (List UInt8 × Json α)} : ms.Perm ms' →
      Reordered (.object ms) (.object ms')
  | element {x x' : Json α} (l r : List (Json α)) : Reordered x x' →
      Reordered (.array (l ++ x :: r)) (.array (l ++ x' :: r))
  | member {x x' : Json α} (k : List UInt8) (l r : List (List UInt8 × Json α)) : Reordered x x' →
      Reordered (.object (l ++ (k, x) :: r)) (.object (l ++ (k, x') :: r))

/-- A JSON text that denotes a value. -/
inductive Denotes {α : Type} (leaf : α → List UInt8 → Prop) (v : Json α) : List UInt8 → Prop
  | text {v' : Json α} {w t w' : List UInt8} : Reordered v' v → Blank w → Spells leaf v' t →
      Blank w' → Denotes leaf v (w ++ t ++ w')

/-! ## No text has a byte 0 -/

theorem Blank.zero_notMem {w : List UInt8} (h : Blank w) : 0 ∉ w := fun hmem => by
  simpa using h 0 hmem

theorem Digits.zero_notMem {ds : List UInt8} (h : Digits ds) : 0 ∉ ds := fun hmem => by
  simpa using h.2 0 hmem

theorem hexDigit_ne_zero {d : UInt8} {n : Nat} (h : hexDigit d = some n) : d ≠ 0 ∧ d ≠ 0x20 := by
  constructor <;> rintro rfl <;> simp [hexDigit] at h

theorem hexWord_digits {ds : List UInt8} {n : Nat} (h : hexWord ds = some n) :
    ds.length = 4 ∧ ∀ d ∈ ds, d ≠ 0 ∧ d ≠ 0x20 := by
  match ds, h with
  | [a, b, c, d], h =>
    simp only [hexWord, Option.bind_eq_bind, Option.bind_eq_some_iff] at h
    obtain ⟨na, ha, nb, hb, nc, hc, nd, hd, -⟩ := h
    simp [hexDigit_ne_zero ha, hexDigit_ne_zero hb, hexDigit_ne_zero hc, hexDigit_ne_zero hd]

theorem hexWord_zero_notMem {ds : List UInt8} {n : Nat} (h : hexWord ds = some n) : 0 ∉ ds :=
  fun hmem => ((hexWord_digits h).2 0 hmem).1 rfl

private theorem escapes_ne_zero {p : UInt8 × UInt8} (h : p ∈ escapes) : p.1 ≠ 0 := by
  have hall : escapes.all (fun p => p.1 ≠ 0) = true := by decide
  simpa using List.all_eq_true.mp hall p h

theorem CharText.zero_notMem {c t : List UInt8} (h : CharText c t) : 0 ∉ t := by
  cases h with
  | plain hctl _ _ =>
    simp only [List.mem_singleton]
    rintro rfl
    simp at hctl
  | escape h => simpa using (escapes_ne_zero h).symm
  | unicode h _ => simpa using hexWord_zero_notMem h
  | surrogates hhi hlo _ _ => simpa using ⟨hexWord_zero_notMem hhi, hexWord_zero_notMem hlo⟩

theorem CharsText.zero_notMem {s t : List UInt8} (h : CharsText s t) : 0 ∉ t := by
  induction h with
  | nil => simp
  | cons hc _ ih => simp [hc.zero_notMem, ih]

theorem StringText.zero_notMem {s t : List UInt8} (h : StringText s t) : 0 ∉ t := by
  cases h with
  | quoted h => simp [h.zero_notMem]

theorem FractionText.zero_notMem {fs t : List UInt8} (h : FractionText fs t) : 0 ∉ t := by
  cases h with
  | absent => simp
  | point h => simp [h.zero_notMem]

theorem ExponentText.zero_notMem {e : Int} {t : List UInt8} (h : ExponentText e t) : 0 ∉ t := by
  cases h with
  | absent => simp
  | plain he hds | plus he hds | minus he hds =>
    obtain rfl | rfl := he <;> simp [hds.zero_notMem]

theorem MagnitudeText.zero_notMem {q : ℚ} {t : List UInt8} (h : MagnitudeText q t) : 0 ∉ t := by
  cases h with
  | mk hds _ hfs he => simp [hds.zero_notMem, hfs.zero_notMem, he.zero_notMem]

theorem NumberText.zero_notMem {q : ℚ} {t : List UInt8} (h : NumberText q t) : 0 ∉ t := by
  cases h with
  | plus h => exact h.zero_notMem
  | minus h => simp [h.zero_notMem]

section
variable {α : Type} {leaf : α → List UInt8 → Prop}

mutual
theorem Spells.zero_notMem (hleaf : ∀ a t, leaf a t → 0 ∉ t) {v : Json α} {t : List UInt8} :
    Spells leaf v t → 0 ∉ t
  | .scalar h => hleaf _ _ h
  | .string h => h.zero_notMem
  | .array h => by simp [Elements.zero_notMem hleaf h]
  | .object h => by simp [Members.zero_notMem hleaf h]

theorem Elements.zero_notMem (hleaf : ∀ a t, leaf a t → 0 ∉ t) {xs : List (Json α)}
    {t : List UInt8} : Elements leaf xs t → 0 ∉ t
  | .none h => h.zero_notMem
  | .one hw h hw' => by simp [hw.zero_notMem, Spells.zero_notMem hleaf h, hw'.zero_notMem]
  | .more hw h hw' hr => by
    simp [hw.zero_notMem, Spells.zero_notMem hleaf h, hw'.zero_notMem,
      Elements.zero_notMem hleaf hr]

theorem Members.zero_notMem (hleaf : ∀ a t, leaf a t → 0 ∉ t) {ms : List (List UInt8 × Json α)}
    {t : List UInt8} : Members leaf ms t → 0 ∉ t
  | .none h => h.zero_notMem
  | .one h => Member.zero_notMem hleaf h
  | .more h hr => by simp [Member.zero_notMem hleaf h, Members.zero_notMem hleaf hr]

theorem Member.zero_notMem (hleaf : ∀ a t, leaf a t → 0 ∉ t) {m : List UInt8 × Json α}
    {t : List UInt8} : Member leaf m t → 0 ∉ t
  | .pair hw hk hw' hv h hv' => by
    simp [hw.zero_notMem, hk.zero_notMem, hw'.zero_notMem, hv.zero_notMem,
      Spells.zero_notMem hleaf h, hv'.zero_notMem]
end

theorem Denotes.zero_notMem (hleaf : ∀ a t, leaf a t → 0 ∉ t) {v : Json α} {t : List UInt8}
    (h : Denotes leaf v t) : 0 ∉ t := by
  cases h with
  | text _ hw h hw' => simp [hw.zero_notMem, h.zero_notMem hleaf, hw'.zero_notMem]

end

/-! ## The least number of visible bytes

White space and the spaces of a string may be missing or be many, so only the other bytes are
counted. -/

/-- The bytes that are no spaces. -/
def visible (t : List UInt8) : Nat := t.countP fun b => b != 0x20

@[simp] theorem visible_nil : visible [] = 0 := rfl

@[simp] theorem visible_append (s t : List UInt8) : visible (s ++ t) = visible s + visible t :=
  List.countP_append

@[simp] theorem visible_cons (b : UInt8) (t : List UInt8) :
    visible (b :: t) = (if b = 0x20 then 0 else 1) + visible t := by
  by_cases h : b = 0x20 <;> simp [visible, h, Nat.add_comm]

theorem visible_le_length (t : List UInt8) : visible t ≤ t.length := List.countP_le_length

private theorem visible_eq_length {t : List UInt8} (h : 0x20 ∉ t) : visible t = t.length := by
  refine List.countP_eq_length.mpr fun b hb => ?_
  simpa using fun (hb' : b = 0x20) => h (hb' ▸ hb)

/-- What a byte of a string takes at least: nothing for a space, two for what a letter behind a
backslash stands for, six for the other control characters. -/
def charCost (b : UInt8) : Nat :=
  if b = 0x20 then 0
  else if b = 0x22 ∨ b = 0x5c ∨ b ∈ [(0x08 : UInt8), 0x0c, 0x0a, 0x0d, 0x09] then 2
  else if b < 0x20 then 6
  else 1

/-- What the characters of a string take at least. -/
def charsCost (s : List UInt8) : Nat := (s.map charCost).sum

@[simp] theorem charsCost_nil : charsCost [] = 0 := rfl

@[simp] theorem charsCost_cons (b : UInt8) (s : List UInt8) :
    charsCost (b :: s) = charCost b + charsCost s := by simp [charsCost]

@[simp] theorem charsCost_append (s t : List UInt8) :
    charsCost (s ++ t) = charsCost s + charsCost t := by simp [charsCost]

theorem charCost_le (b : UInt8) : charCost b ≤ 6 := by
  unfold charCost
  split_ifs <;> simp

private theorem charCost_of_high {b : UInt8} (h : 128 ≤ b.toNat) : charCost b = 1 := by
  have hne (c : UInt8) (hc : c.toNat < 128) : b ≠ c := by
    rintro rfl
    omega
  have hctl : ¬b < 0x20 := fun hlt =>
    absurd (UInt8.lt_iff_toNat_lt.mp hlt) (Nat.not_lt.mpr (Nat.le_trans (by decide) h))
  simp [charCost, hne, hctl]

/-- A character, whatever the number of its bytes, takes no more than a word of hexadecimal
digits. -/
theorem charsCost_utf8EncodeChar (c : Char) : charsCost (String.utf8EncodeChar c) ≤ 6 := by
  have hhigh (n : Nat) (h : 128 ≤ n ∧ n < 256) : charCost (UInt8.ofNat n) = 1 :=
    charCost_of_high (by rw [UInt8.toNat_ofNat', Nat.mod_eq_of_lt h.2]; exact h.1)
  unfold String.utf8EncodeChar
  extract_lets v
  split_ifs
  all_goals simp only [charsCost_cons, charsCost_nil]
  · exact charCost_le _
  · rw [hhigh (v / 64 % 32 + 192) (by omega), hhigh (v % 64 + 128) (by omega)]
    omega
  · rw [hhigh (v / 4096 % 16 + 224) (by omega), hhigh (v / 64 % 64 + 128) (by omega),
      hhigh (v % 64 + 128) (by omega)]
    omega
  · rw [hhigh (v / 262144 % 8 + 240) (by omega), hhigh (v / 4096 % 64 + 128) (by omega),
      hhigh (v / 64 % 64 + 128) (by omega), hhigh (v % 64 + 128) (by omega)]
    omega

theorem visible_hexWord {ds : List UInt8} {n : Nat} (h : hexWord ds = some n) : visible ds = 4 := by
  obtain ⟨hlen, hds⟩ := hexWord_digits h
  rw [visible_eq_length fun hmem => (hds _ hmem).2 rfl, hlen]

theorem escapes_visible {p : UInt8 × UInt8} (h : p ∈ escapes) :
    charCost p.2 ≤ visible [0x5c, p.1] := by
  have hall : escapes.all (fun p => charCost p.2 ≤ visible [0x5c, p.1]) = true := by decide
  exact of_decide_eq_true (List.all_eq_true.mp hall p h)

theorem CharText.cost_le {c t : List UInt8} (h : CharText c t) : charsCost c ≤ visible t := by
  cases h with
  | @plain b hctl hquote hback =>
    simp only [charsCost_cons, charsCost_nil, visible_cons, visible_nil, charCost]
    split_ifs with h₁ h₂ h₃
    · simp
    · simp only [hquote, hback, false_or, List.mem_cons, List.not_mem_nil, or_false] at h₂
      obtain rfl | rfl | rfl | rfl | rfl := h₂ <;> simp at hctl
    · exact absurd hctl (UInt8.not_le.mpr h₃)
    · simp
  | escape h => simpa using escapes_visible h
  | @unicode ds n h _ =>
    simpa [visible_hexWord h] using charsCost_utf8EncodeChar (Char.ofNat n)
  | surrogates hhi hlo _ _ =>
    have h := charsCost_utf8EncodeChar
    simp only [visible_append, visible_cons, visible_hexWord hhi, visible_hexWord hlo,
      List.cons_append]
    exact Nat.le_trans (h _) (by simp)

theorem CharsText.cost_le {s t : List UInt8} (h : CharsText s t) : charsCost s ≤ visible t := by
  induction h with
  | nil => simp
  | cons hc _ ih =>
    have := hc.cost_le
    simp only [charsCost_append, visible_append]
    omega

/-- What a string takes at least, with its quotation marks. -/
def stringCost (s : List UInt8) : Nat := charsCost s + 2

theorem StringText.cost_le {s t : List UInt8} (h : StringText s t) : stringCost s ≤ visible t := by
  cases h with
  | quoted h =>
    have := h.cost_le
    simp only [stringCost, visible_append, visible_cons, visible_nil, List.cons_append]
    simp
    omega

section
variable {α : Type} (size : α → Nat)

mutual
/-- What a value takes at least, if a scalar takes what `size` says. -/
def cost : Json α → Nat
  | .scalar a => size a
  | .string s => stringCost s
  | .array xs => 1 + max 1 (elementsCost xs)
  | .object ms => 1 + max 1 (membersCost ms)

/-- What the elements of an array take, a comma or the closing bracket behind each. -/
def elementsCost : List (Json α) → Nat
  | [] => 0
  | x :: xs => cost x + 1 + elementsCost xs

/-- What the members of an object take, a comma or the closing brace behind each. -/
def membersCost : List (List UInt8 × Json α) → Nat
  | [] => 0
  | (k, x) :: ms => stringCost k + 1 + cost x + 1 + membersCost ms
end

variable {size} {leaf : α → List UInt8 → Prop}

mutual
theorem Spells.cost_le (hleaf : ∀ a t, leaf a t → size a ≤ visible t) {v : Json α}
    {t : List UInt8} : Spells leaf v t → cost size v ≤ visible t
  | .scalar h => by simpa [cost] using hleaf _ _ h
  | .string h => by simpa [cost] using h.cost_le
  | .array h => by
    have := Elements.cost_le hleaf h
    simp [cost]
    omega
  | .object h => by
    have := Members.cost_le hleaf h
    simp [cost]
    omega

theorem Elements.cost_le (hleaf : ∀ a t, leaf a t → size a ≤ visible t) {xs : List (Json α)}
    {t : List UInt8} : Elements leaf xs t → elementsCost size xs ≤ visible t + 1
  | .none _ => by simp [elementsCost]
  | .one _ h _ => by
    have := Spells.cost_le hleaf h
    simp [elementsCost]
    omega
  | .more _ h _ hr => by
    have := Spells.cost_le hleaf h
    have := Elements.cost_le hleaf hr
    simp [elementsCost] at this ⊢
    omega

theorem Members.cost_le (hleaf : ∀ a t, leaf a t → size a ≤ visible t)
    {ms : List (List UInt8 × Json α)} {t : List UInt8} :
    Members leaf ms t → membersCost size ms ≤ visible t + 1
  | .none _ => by simp [membersCost]
  | .one (m := (k, x)) h => by
    have := Member.cost_le hleaf h
    simp [membersCost]
    omega
  | .more (m := (k, x)) h hr => by
    have := Member.cost_le hleaf h
    have := Members.cost_le hleaf hr
    simp [membersCost] at this ⊢
    omega

theorem Member.cost_le (hleaf : ∀ a t, leaf a t → size a ≤ visible t) {k : List UInt8}
    {x : Json α} {t : List UInt8} :
    Member leaf (k, x) t → stringCost k + 1 + cost size x ≤ visible t
  | .pair _ hk _ _ h _ => by
    have := hk.cost_le
    have := Spells.cost_le hleaf h
    simp
    omega
end

theorem membersCost_eq_sum (ms : List (List UInt8 × Json α)) :
    membersCost size ms = (ms.map fun m => stringCost m.1 + 1 + cost size m.2 + 1).sum := by
  induction ms with
  | nil => rfl
  | cons m ms ih => simp [membersCost, ih]

theorem elementsCost_eq_sum (xs : List (Json α)) :
    elementsCost size xs = (xs.map fun x => cost size x + 1).sum := by
  induction xs with
  | nil => rfl
  | cons x xs ih => simp [elementsCost, ih]

theorem Reordered.cost_eq {v v' : Json α} (h : Reordered v v') : cost size v = cost size v' := by
  induction h with
  | refl v => rfl
  | trans _ _ ih ih' => exact ih.trans ih'
  | members h => simp only [cost, membersCost_eq_sum, (h.map _).sum_eq]
  | element l r _ ih => simp [cost, elementsCost_eq_sum, ih]
  | member k l r _ ih => simp [cost, membersCost_eq_sum, ih]

theorem Denotes.cost_le (hleaf : ∀ a t, leaf a t → size a ≤ visible t) {v : Json α}
    {t : List UInt8} (h : Denotes leaf v t) : cost size v ≤ visible t := by
  cases h with
  | text hsame _ h _ =>
    have := h.cost_le hleaf
    rw [← hsame.cost_eq]
    simp only [visible_append]
    omega

end

end Json
