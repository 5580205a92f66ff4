import DBStream.Spec.JsonEncoding

/-!
# The texts that are written

What is written for a value, as a relation between the text so far and the text behind the value.
A container without entries takes a byte of the text before it.  Whether the text denotes the value
is decided by counting: an integer and a backslash leave a byte 0, which no JSON text has, and
whatever else goes wrong leaves too few visible bytes.
-/

namespace DBStream.Native.DATA_SOURCE.JsonColumn

open Json (visible charCost charsCost stringCost)

/-! ## Strings -/

/-- What is written for a character. -/
def quoted (c : UInt8) : List UInt8 := (stores c).flatten

def quotedString (s : List UInt8) : List UInt8 := 0x22 :: s.flatMap quoted ++ [0x22]

/-- What is left of it: of 2 ^ 32 bytes or more, only a number is known. -/
def QuotedAs (s x : List UInt8) : Prop :=
  x.length = (quotedString s).length % 2 ^ 32 ∧ ((quotedString s).length < 2 ^ 32 → x = quotedString s)

/-- No quotation mark, no backslash and no character 0x1f. -/
def Plain (s : List UInt8) : Prop := 0x22 ∉ s ∧ 0x5c ∉ s ∧ 0x1f ∉ s

/-- The size of the shortest text of a string. -/
def spelledSize (s : List UInt8) : Nat :=
  (s.map fun c => if c = 0x20 then 1 else charCost c).sum + 2

/-- The strings that are written as they should be. -/
structure Quotable (s : List UInt8) : Prop where
  plain : Plain s
  length_lt : s.length < 2 ^ 31
  spelled_lt : spelledSize s < 2 ^ 32

/-- A character is a control character, a backslash, or one that is stored as it is. -/
theorem byte_cases {P : UInt8 → Prop} (hctl : ∀ c ∈ (List.range 32).map UInt8.ofNat, P c)
    (hback : P 0x5c) (hplain : ∀ c, 0x20 ≤ c → c ≠ 0x5c → quoted c = [c] → P c) (c : UInt8) : P c := by
  by_cases hc : c.toNat < 32
  · exact hctl c (List.mem_map.mpr ⟨c.toNat, List.mem_range.mpr hc, UInt8.ofNat_toNat⟩)
  have hlarge : 0x1f < c ∧ 0x20 ≤ c := by
    simp only [UInt8.lt_iff_toNat_lt, UInt8.le_iff_toNat_le]
    exact ⟨Nat.lt_of_lt_of_le (by decide) (Nat.le_of_not_lt hc), Nat.le_of_not_lt hc⟩
  by_cases h : c = 0x5c
  · exact h ▸ hback
  · exact hplain c hlarge.2 h (by simp [quoted, stores, hlarge.1, h])

theorem charCost_plain {c : UInt8} (hc : 0x20 ≤ c) (hback : c ≠ 0x5c) :
    charCost c = if c = 0x20 then 0 else if c = 0x22 then 2 else 1 := by
  have hctl (d : UInt8) (hd : d < 0x20) : c ≠ d := fun h =>
    absurd (h ▸ hd) (UInt8.not_lt.mpr hc)
  simp [charCost, hback, UInt8.not_lt.mpr hc, hctl 8 (by decide), hctl 12 (by decide),
    hctl 10 (by decide), hctl 13 (by decide), hctl 9 (by decide)]

theorem quoted_control : ∀ c ∈ (List.range 32).map UInt8.ofNat,
    (visible (quoted c) ≤ charCost c ∧ (visible (quoted c) = charCost c → c ≠ 0x22 ∧ c ≠ 0x1f)) ∧
    (quoted c).length ≤ charCost c + 1 ∧
    (c ≠ 0x5c ∧ c ≠ 0x1f → c ≠ 0x22 → (quoted c).length = if c = 0x20 then 1 else charCost c) ∧
    (c ≠ 0x22 ∧ c ≠ 0x5c ∧ c ≠ 0x1f → (0x20 ≤ c ∧ quoted c = [c]) ∨
      (∃ p ∈ Json.escapes, p.2 = c ∧ quoted c = [0x5c, p.1]) ∨
      (c < 0x20 ∧ quoted c = 0x5c :: 0x75 :: (quoted c).drop 2 ∧
        Json.hexWord ((quoted c).drop 2) = some c.toNat)) := by
  decide +kernel

private theorem visible_quoted (c : UInt8) :
    visible (quoted c) ≤ charCost c ∧
      (visible (quoted c) = charCost c → c ≠ 0x22 ∧ c ≠ 0x1f) := by
  induction c using byte_cases with
  | hctl c hc => exact (quoted_control c hc).1
  | hback => decide
  | hplain c hc hback hquoted =>
    have hne : c ≠ 0x1f := fun h => absurd (h ▸ hc) (by decide)
    rw [hquoted, charCost_plain hc hback, Json.visible_cons, Json.visible_nil]
    by_cases hquote : c = 0x22
    · subst hquote
      decide
    · simp [hquote, hne]

private theorem length_quoted_le (c : UInt8) : (quoted c).length ≤ charCost c + 1 := by
  induction c using byte_cases with
  | hctl c hc => exact (quoted_control c hc).2.1
  | hback => decide
  | hplain c _ _ hquoted =>
    rw [hquoted]
    exact Nat.le_add_left ..

private theorem length_quoted (c : UInt8) (h : c ≠ 0x5c ∧ c ≠ 0x1f) (hquote : c ≠ 0x22) :
    (quoted c).length = if c = 0x20 then 1 else charCost c := by
  revert h hquote
  induction c using byte_cases with
  | hctl c hc => exact (quoted_control c hc).2.2.1
  | hback => decide
  | hplain c hc hback hquoted =>
    intro _ hquote
    rw [hquoted, charCost_plain hc hback, if_neg hquote]
    split <;> rfl

theorem utf8EncodeChar_control : ∀ n < 32,
    String.utf8EncodeChar (Char.ofNat n) = [UInt8.ofNat n] := by decide

theorem quoted_cases (c : UInt8) (h : c ≠ 0x22 ∧ c ≠ 0x5c ∧ c ≠ 0x1f) :
    (0x20 ≤ c ∧ quoted c = [c]) ∨
    (∃ p ∈ Json.escapes, p.2 = c ∧ quoted c = [0x5c, p.1]) ∨
    (c < 0x20 ∧ quoted c = 0x5c :: 0x75 :: (quoted c).drop 2 ∧
      Json.hexWord ((quoted c).drop 2) = some c.toNat) := by
  revert h
  induction c using byte_cases with
  | hctl c hc => exact (quoted_control c hc).2.2.2
  | hback => decide
  | hplain c hc _ hquoted => exact fun _ => .inl ⟨hc, hquoted⟩

theorem quoted_charText {c : UInt8} (h : c ≠ 0x22 ∧ c ≠ 0x5c ∧ c ≠ 0x1f) :
    Json.CharText [c] (quoted c) := by
  obtain ⟨hctl, hq⟩ | ⟨p, hp, rfl, hq⟩ | ⟨hctl, hq, hhex⟩ := quoted_cases c h
  · exact hq ▸ .plain hctl h.1 h.2.1
  · exact hq ▸ .escape hp
  · have hlt : c.toNat < 32 := hctl
    have hutf8 := utf8EncodeChar_control c.toNat hlt
    rw [UInt8.ofNat_toNat] at hutf8
    rw [hq, ← hutf8]
    exact .unicode hhex (.inl (by omega))

theorem quoted_charsText {s : List UInt8} (h : Plain s) :
    Json.CharsText s (s.flatMap quoted) := by
  induction s with
  | nil => exact .nil
  | cons c s ih =>
    simp only [Plain, List.mem_cons, not_or] at h
    have hc : Json.CharText [c] (quoted c) :=
      quoted_charText ⟨Ne.symm h.1.1, Ne.symm h.2.1.1, Ne.symm h.2.2.1⟩
    exact .cons hc (ih ⟨h.1.2, h.2.1.2, h.2.2.2⟩)

theorem quotedString_stringText {s : List UInt8} (h : Plain s) :
    Json.StringText s (quotedString s) :=
  .quoted (quoted_charsText h)

theorem length_flatMap_quoted {s : List UInt8} (h : Plain s) :
    (s.flatMap quoted).length = (s.map fun c => if c = 0x20 then 1 else charCost c).sum := by
  rw [List.length_flatMap]
  congr 1
  refine List.map_congr_left fun c hc => ?_
  exact length_quoted c ⟨fun hc' => h.2.1 (hc' ▸ hc), fun hc' => h.2.2 (hc' ▸ hc)⟩
    fun hc' => h.1 (hc' ▸ hc)

theorem length_quotedString {s : List UInt8} (h : Plain s) :
    (quotedString s).length = spelledSize s := by
  simp only [quotedString, List.length_append, List.length_cons, List.length_nil,
    length_flatMap_quoted h, spelledSize]

theorem Quotable.stringText {s x : List UInt8} (h : Quotable s) (hx : QuotedAs s x) :
    Json.StringText s x := by
  rw [hx.2 (length_quotedString h.plain ▸ h.spelled_lt)]
  exact quotedString_stringText h.plain

theorem visible_flatMap_quoted (s : List UInt8) :
    visible (s.flatMap quoted) ≤ charsCost s ∧
      (visible (s.flatMap quoted) = charsCost s → 0x22 ∉ s ∧ 0x1f ∉ s) := by
  induction s with
  | nil => simp
  | cons c s ih =>
    obtain ⟨hle, heq⟩ := visible_quoted c
    simp only [List.flatMap_cons, Json.visible_append, Json.charsCost_cons]
    refine ⟨by omega, fun h => ?_⟩
    have hc := heq (by omega)
    have hs := ih.2 (by omega)
    simp [hs, Ne.symm hc.1, Ne.symm hc.2]

theorem visible_quotedString (s : List UInt8) :
    visible (quotedString s) = visible (s.flatMap quoted) + 2 := by
  simp [quotedString]
  omega

theorem length_flatMap_quoted_le (s : List UInt8) :
    (s.flatMap quoted).length ≤ charsCost s + s.length := by
  induction s with
  | nil => simp
  | cons c s ih =>
    have := length_quoted_le c
    simp only [List.flatMap_cons, List.length_append, Json.charsCost_cons, List.length_cons]
    omega

theorem backslash_notMem {s : List UInt8} (h : 0 ∉ s.flatMap quoted) : 0x5c ∉ s := fun hmem =>
  h (List.mem_flatMap.mpr ⟨0x5c, hmem, by decide⟩)

/-- A string has its visible bytes only if it is quotable: one of 2 ^ 32 bytes or more loses them,
as few of its bytes are spaces. -/
theorem QuotedAs.visible_le {s x : List UInt8} (h : QuotedAs s x) (hlen : s.length < 2 ^ 31)
    (hzero : 0 ∉ x) : visible x ≤ stringCost s ∧ (visible x = stringCost s → Quotable s) := by
  by_cases hfit : (quotedString s).length < 2 ^ 32
  · obtain rfl := h.2 hfit
    obtain ⟨hle, heq⟩ := visible_flatMap_quoted s
    rw [visible_quotedString, stringCost]
    refine ⟨by omega, fun hsame => ?_⟩
    have hmarks := heq (by omega)
    have hback : 0x5c ∉ s := backslash_notMem fun hmem => hzero (by simp [quotedString, hmem])
    have hplain : Plain s := ⟨hmarks.1, hback, hmarks.2⟩
    exact ⟨hplain, hlen, length_quotedString hplain ▸ hfit⟩
  · have hvis := Json.visible_le_length x
    have hbound := length_flatMap_quoted_le s
    have hsize : (quotedString s).length = (s.flatMap quoted).length + 2 := by simp [quotedString]
    have hx := h.1
    have hlt : visible x < stringCost s := by
      rw [stringCost]
      omega
    exact ⟨Nat.le_of_lt hlt, fun hsame => absurd hsame (Nat.ne_of_lt hlt)⟩

/-! ## Values -/

/-- The end of a container: the bracket takes the place of the last two bytes, or of the last byte
before the text, which is lost. -/
def closed (bracket : UInt8) (t : List UInt8) : List UInt8 :=
  if t.length < 2 then [] else t.dropLast.dropLast ++ [bracket]

mutual
/-- The text before a value, and the text behind it. -/
def Wrote : BinaryJson → List UInt8 → List UInt8 → Prop
  | .scalar (.literal b), u, t => t = u ++ literalText b
  | .scalar (.integer _), u, t => ∃ x, 0 ∈ x ∧ t = u ++ x
  | .scalar (.field _ _), _, _ => False
  | .string s, u, t => s.length < 2 ^ 31 ∧ ∃ x, QuotedAs s x ∧ t = u ++ x
  | .array xs, u, t => ∃ y, ElementsWrote xs (u ++ [0x5b]) y ∧ t = closed 0x5d y
  | .object ms, u, t => ∃ y, MembersWrote ms (u ++ [0x7b]) y ∧ t = closed 0x7d y

/-- The text before elements, and the text behind them and a comma. -/
def ElementsWrote : List BinaryJson → List UInt8 → List UInt8 → Prop
  | [], u, t => t = u
  | x :: xs, u, t => ∃ y, Wrote x u y ∧ ElementsWrote xs (y ++ [0x2c, 0x20]) t

/-- The text before members, and the text behind them and a comma. -/
def MembersWrote : List (List UInt8 × BinaryJson) → List UInt8 → List UInt8 → Prop
  | [], u, t => t = u
  | (k, x) :: ms, u, t =>
    ∃ y, Wrote x (u ++ quotedString k ++ [0x3a, 0x20]) y ∧ MembersWrote ms (y ++ [0x2c, 0x20]) t
end

mutual
/-- The values whose text is written: literals and quotable strings, in containers that are not
empty. -/
def Renderable : BinaryJson → Prop
  | .scalar (.literal _) => True
  | .scalar (.integer _) => False
  | .scalar (.field _ _) => False
  | .string s => Quotable s
  | .array xs => xs ≠ [] ∧ ElementsRenderable xs
  | .object ms => ms ≠ [] ∧ MembersRenderable ms

def ElementsRenderable : List BinaryJson → Prop
  | [] => True
  | x :: xs => Renderable x ∧ ElementsRenderable xs

def MembersRenderable : List (List UInt8 × BinaryJson) → Prop
  | [] => True
  | (k, x) :: ms => Plain k ∧ Renderable x ∧ MembersRenderable ms
end

theorem ElementsWrote.shape {xs : List BinaryJson} {u t : List UInt8} (h : ElementsWrote xs u t) :
    (xs = [] ∧ t = u) ∨ ∃ z, xs ≠ [] ∧ t = z ++ [0x2c, 0x20] := by
  induction xs generalizing u with
  | nil => exact .inl ⟨rfl, h⟩
  | cons x xs ih =>
    obtain ⟨y, -, hrest⟩ := h
    obtain ⟨-, rfl⟩ | ⟨z, -, rfl⟩ := ih hrest
    · exact .inr ⟨y, by simp, rfl⟩
    · exact .inr ⟨z, by simp, rfl⟩

theorem MembersWrote.shape {ms : List (List UInt8 × BinaryJson)} {u t : List UInt8}
    (h : MembersWrote ms u t) : (ms = [] ∧ t = u) ∨ ∃ z, ms ≠ [] ∧ t = z ++ [0x2c, 0x20] := by
  induction ms generalizing u with
  | nil => exact .inl ⟨rfl, h⟩
  | cons m ms ih =>
    obtain ⟨y, -, hrest⟩ := h
    obtain ⟨-, rfl⟩ | ⟨z, -, rfl⟩ := ih hrest
    · exact .inr ⟨y, by simp, rfl⟩
    · exact .inr ⟨z, by simp, rfl⟩

@[simp] theorem closed_append (bracket : UInt8) (z : List UInt8) :
    closed bracket (z ++ [0x2c, 0x20]) = z ++ [bracket] := by
  have hdrop : z ++ [0x2c, 0x20] = z ++ [0x2c] ++ [0x20] := by simp
  rw [closed, if_neg (by simp), hdrop, List.dropLast_concat, List.dropLast_concat]

theorem closed_empty (bracket b : UInt8) (u : List UInt8) :
    closed bracket (u ++ [b]) = if u = [] then [] else u.dropLast ++ [bracket] := by
  cases u with
  | nil => rfl
  | cons c u => rw [closed, if_neg (by simp), List.dropLast_concat, if_neg (by simp)]

/-! ## A byte 0 stays -/

/-- What may be before a value: a byte 0 is not the last one. -/
def Ready (u : List UInt8) : Prop := u.getLast? ≠ some 0

theorem zero_mem_closed {u t : List UInt8} {b bracket : UInt8} {isEmpty : Prop} (hu : Ready u)
    (hb : b ≠ 0) (h : (isEmpty ∧ t = u ++ [b]) ∨ ∃ z, ¬isEmpty ∧ t = z ++ [0x2c, 0x20])
    (hmem : 0 ∈ t) : 0 ∈ closed bracket t := by
  obtain ⟨-, rfl⟩ | ⟨z, -, rfl⟩ := h
  · -- the byte that is lost is the last one before the value
    rw [closed_empty]
    have hmem : 0 ∈ u := by simpa [Ne.symm hb] using hmem
    have hne : u ≠ [] := List.ne_nil_of_mem hmem
    rw [if_neg hne]
    rw [← List.dropLast_append_getLast hne, List.mem_append] at hmem
    refine List.mem_append_left _ (hmem.resolve_right fun hlast => hu ?_)
    rw [List.getLast?_eq_some_getLast hne, ← List.mem_singleton.mp hlast]
  · rw [closed_append]
    exact List.mem_append_left _ (by simpa using hmem)

mutual
theorem Wrote.zero_mem : (v : BinaryJson) → {u t : List UInt8} → Wrote v u t → Ready u → 0 ∈ u →
    0 ∈ t
  | .scalar (.literal _), _, _, h, _, hmem => h ▸ List.mem_append_left _ hmem
  | .scalar (.integer _), _, _, h, _, hmem => by
    obtain ⟨x, -, rfl⟩ := h
    exact List.mem_append_left _ hmem
  | .scalar (.field _ _), _, _, h, _, _ => h.elim
  | .string _, _, _, h, _, hmem => by
    obtain ⟨-, x, -, rfl⟩ := h
    exact List.mem_append_left _ hmem
  | .array xs, u, _, h, hu, hmem => by
    obtain ⟨y, hy, rfl⟩ := h
    have hmem := ElementsWrote.zero_mem xs hy (by simp [Ready]) (List.mem_append_left _ hmem)
    exact zero_mem_closed hu (by decide) hy.shape hmem
  | .object ms, u, _, h, hu, hmem => by
    obtain ⟨y, hy, rfl⟩ := h
    have hmem := MembersWrote.zero_mem ms hy (List.mem_append_left _ hmem)
    exact zero_mem_closed hu (by decide) hy.shape hmem

theorem ElementsWrote.zero_mem : (xs : List BinaryJson) → {u t : List UInt8} →
    ElementsWrote xs u t → Ready u → 0 ∈ u → 0 ∈ t
  | [], _, _, h, _, hmem => h ▸ hmem
  | x :: xs, u, _, h, hu, hmem => by
    obtain ⟨y, hx, hxs⟩ := h
    have hy : 0 ∈ y := Wrote.zero_mem x hx hu hmem
    exact ElementsWrote.zero_mem xs hxs (by simp [Ready]) (List.mem_append_left _ hy)

theorem MembersWrote.zero_mem : (ms : List (List UInt8 × BinaryJson)) → {u t : List UInt8} →
    MembersWrote ms u t → 0 ∈ u → 0 ∈ t
  | [], _, _, h, hmem => h ▸ hmem
  | (k, x) :: ms, u, _, h, hmem => by
    obtain ⟨y, hx, hms⟩ := h
    have hy : 0 ∈ y := Wrote.zero_mem x hx (by simp [Ready]) (by simp [hmem])
    exact MembersWrote.zero_mem ms hms (List.mem_append_left _ hy)
end

/-! ## What the text denotes -/

theorem visible_dropLast_le (u : List UInt8) : visible u.dropLast ≤ visible u :=
  List.Sublist.countP_le (List.dropLast_sublist u)

theorem visible_concat {b : UInt8} (h : b ≠ 0x20) (t : List UInt8) :
    visible (t ++ [b]) = visible t + 1 := by
  simp [h]

theorem visible_comma (t : List UInt8) : visible (t ++ [0x2c, 0x20]) = visible t + 1 :=
  Json.visible_append _ _

theorem visible_colon (t : List UInt8) : visible (t ++ [0x3a, 0x20]) = visible t + 1 :=
  Json.visible_append _ _

theorem visible_closed_empty (bracket b : UInt8) (u : List UInt8) :
    visible (closed bracket (u ++ [b])) < visible u + 2 := by
  have hbracket : visible [bracket] ≤ 1 := Json.visible_le_length [bracket]
  have hdrop := visible_dropLast_le u
  rw [closed_empty]
  split
  · simp
  · rw [Json.visible_append]
    omega

theorem visible_closed_le {bracket b : UInt8} {u y : List UInt8} {n : Nat} {isEmpty rest : Prop}
    (hb : b ≠ 0x20) (hbracket : bracket ≠ 0x20)
    (hshape : (isEmpty ∧ y = u ++ [b]) ∨ ∃ z, ¬isEmpty ∧ y = z ++ [0x2c, 0x20])
    (hle : visible y ≤ visible (u ++ [b]) + n)
    (heq : visible y = visible (u ++ [b]) + n → rest) :
    visible (closed bracket y) ≤ visible u + (1 + max 1 n) ∧
      (visible (closed bracket y) = visible u + (1 + max 1 n) → ¬isEmpty ∧ rest) := by
  obtain ⟨-, rfl⟩ | ⟨z, hne, rfl⟩ := hshape
  · have hlt := visible_closed_empty bracket b u
    exact ⟨by omega, fun hsame => absurd hsame (by omega)⟩
  · -- the bracket is as visible as the comma in whose place it is
    rw [visible_comma, visible_concat hb] at hle heq
    rw [closed_append, visible_concat hbracket]
    exact ⟨by omega, fun hsame => ⟨hne, heq (by omega)⟩⟩

theorem zero_notMem_of_closed {u t : List UInt8} {b bracket : UInt8} {isEmpty : Prop}
    (hu : Ready u) (hb : b ≠ 0)
    (h : (isEmpty ∧ t = u ++ [b]) ∨ ∃ z, ¬isEmpty ∧ t = z ++ [0x2c, 0x20])
    (hzero : 0 ∉ closed bracket t) : 0 ∉ t :=
  fun hmem => hzero (zero_mem_closed hu hb h hmem)

mutual
theorem Wrote.visible_le : (v : BinaryJson) → {u t : List UInt8} → Wrote v u t → Ready u → 0 ∉ t →
    visible t ≤ visible u + v.cost scalarSize ∧
      (visible t = visible u + v.cost scalarSize → Renderable v)
  | .scalar (.literal b), _, _, h, _, _ => by
    subst h
    simp [Json.cost, scalarSize, visible_literalText, Renderable]
  | .scalar (.integer _), _, _, h, _, hzero => by
    obtain ⟨x, hx, rfl⟩ := h
    -- the byte 0 behind the digits
    exact absurd (List.mem_append_right _ hx) hzero
  | .scalar (.field _ _), _, _, h, _, _ => h.elim
  | .string s, _, _, h, _, hzero => by
    obtain ⟨hlen, x, hx, rfl⟩ := h
    obtain ⟨hle, heq⟩ := hx.visible_le hlen fun hmem => hzero (List.mem_append_right _ hmem)
    simp only [Json.visible_append, Json.cost]
    exact ⟨by omega, fun hsame => heq (by omega)⟩
  | .array xs, u, _, h, hu, hzero => by
    obtain ⟨y, hy, rfl⟩ := h
    have hzero := zero_notMem_of_closed hu (by decide) hy.shape hzero
    obtain ⟨hle, heq⟩ := ElementsWrote.visible_le xs hy (by simp [Ready]) hzero
    exact visible_closed_le (by decide) (by decide) hy.shape hle heq
  | .object ms, u, _, h, hu, hzero => by
    obtain ⟨y, hy, rfl⟩ := h
    have hzero := zero_notMem_of_closed hu (by decide) hy.shape hzero
    obtain ⟨hle, heq⟩ := MembersWrote.visible_le ms hy hzero
    exact visible_closed_le (by decide) (by decide) hy.shape hle heq

theorem ElementsWrote.visible_le : (xs : List BinaryJson) → {u t : List UInt8} →
    ElementsWrote xs u t → Ready u → 0 ∉ t →
    visible t ≤ visible u + Json.elementsCost scalarSize xs ∧
      (visible t = visible u + Json.elementsCost scalarSize xs → ElementsRenderable xs)
  | [], _, _, h, _, _ => by
    subst h
    simp [Json.elementsCost, ElementsRenderable]
  | x :: xs, u, _, h, hu, hzero => by
    obtain ⟨y, hx, hxs⟩ := h
    have hready : Ready (y ++ [0x2c, 0x20]) := by simp [Ready]
    have hy : 0 ∉ y := fun hmem =>
      hzero (ElementsWrote.zero_mem xs hxs hready (List.mem_append_left _ hmem))
    obtain ⟨hxle, hxeq⟩ := Wrote.visible_le x hx hu hy
    obtain ⟨hle, heq⟩ := ElementsWrote.visible_le xs hxs hready hzero
    rw [visible_comma] at hle heq
    simp only [Json.elementsCost]
    exact ⟨by omega, fun hsame => ⟨hxeq (by omega), heq (by omega)⟩⟩

theorem MembersWrote.visible_le : (ms : List (List UInt8 × BinaryJson)) → {u t : List UInt8} →
    MembersWrote ms u t → 0 ∉ t →
    visible t ≤ visible u + Json.membersCost scalarSize ms ∧
      (visible t = visible u + Json.membersCost scalarSize ms → MembersRenderable ms)
  | [], _, _, h, _ => by
    subst h
    simp [Json.membersCost, MembersRenderable]
  | (k, x) :: ms, u, _, h, hzero => by
    obtain ⟨y, hx, hms⟩ := h
    have hready : Ready (u ++ quotedString k ++ [0x3a, 0x20]) := by simp [Ready]
    have hy : 0 ∉ y := fun hmem =>
      hzero (MembersWrote.zero_mem ms hms (List.mem_append_left _ hmem))
    have hk : 0 ∉ quotedString k := fun hmem =>
      hy (Wrote.zero_mem x hx hready (by simp [hmem]))
    obtain ⟨hkle, hkeq⟩ := visible_flatMap_quoted k
    obtain ⟨hxle, hxeq⟩ := Wrote.visible_le x hx hready hy
    obtain ⟨hle, heq⟩ := MembersWrote.visible_le ms hms hzero
    rw [visible_comma] at hle heq
    rw [visible_colon, Json.visible_append, visible_quotedString] at hxle hxeq
    simp only [Json.membersCost, stringCost]
    refine ⟨by omega, fun hsame => ⟨?_, hxeq (by omega), heq (by omega)⟩⟩
    have hmarks := hkeq (by omega)
    have hback : 0x5c ∉ k := backslash_notMem fun hmem => hk (by simp [quotedString, hmem])
    exact ⟨hmarks.1, hback, hmarks.2⟩
end

section
variable (meaning : UInt8 → List UInt8 → ℚ ⊕ List UInt8)

theorem blank_nil : Json.Blank [] := by simp [Json.Blank]

theorem blank_space : Json.Blank [0x20] := by simp [Json.Blank]

mutual
theorem Wrote.spells : (v : BinaryJson) → {u t : List UInt8} → Wrote v u t → Renderable v →
    ∃ x, t = u ++ x ∧ Json.Spells (ScalarText meaning) v x
  | .scalar (.literal b), _, _, h, _ => ⟨literalText b, h, .scalar (.literal b)⟩
  | .scalar (.integer _), _, _, _, hr => hr.elim
  | .scalar (.field _ _), _, _, h, _ => h.elim
  | .string s, _, _, h, hr => by
    obtain ⟨-, x, hx, rfl⟩ := h
    exact ⟨x, rfl, .string (Quotable.stringText hr hx)⟩
  | .array xs, u, _, h, hr => by
    obtain ⟨y, hy, rfl⟩ := h
    obtain ⟨e, rfl, he⟩ := ElementsWrote.spells xs hy hr.1 hr.2 [] blank_nil
    rw [closed_append]
    exact ⟨0x5b :: e ++ [0x5d], by simp, .array he⟩
  | .object ms, u, _, h, hr => by
    obtain ⟨y, hy, rfl⟩ := h
    obtain ⟨e, rfl, he⟩ := MembersWrote.spells ms hy hr.1 hr.2 [] blank_nil
    rw [closed_append]
    exact ⟨0x7b :: e ++ [0x7d], by simp, .object he⟩

theorem ElementsWrote.spells : (xs : List BinaryJson) → {u t : List UInt8} →
    ElementsWrote xs u t → xs ≠ [] → ElementsRenderable xs →
    (w : List UInt8) → Json.Blank w →
    ∃ e, t = u ++ e ++ [0x2c, 0x20] ∧ Json.Elements (ScalarText meaning) xs (w ++ e)
  | [], _, _, _, hne, _, _, _ => (hne rfl).elim
  | [x], _, _, h, _, hr, w, hw => by
    obtain ⟨y, hx, rfl⟩ := h
    obtain ⟨e, rfl, he⟩ := Wrote.spells x hx hr.1
    refine ⟨e, rfl, ?_⟩
    simpa using Json.Elements.one hw he blank_nil
  | x :: x' :: xs, _, _, h, _, hr, w, hw => by
    obtain ⟨y, hx, hxs⟩ := h
    obtain ⟨e, rfl, he⟩ := Wrote.spells x hx hr.1
    obtain ⟨e', rfl, he'⟩ := ElementsWrote.spells (x' :: xs) hxs (by simp) hr.2 [0x20] blank_space
    refine ⟨e ++ 0x2c :: 0x20 :: e', by simp, ?_⟩
    simpa using Json.Elements.more hw he blank_nil he'

theorem MembersWrote.spells : (ms : List (List UInt8 × BinaryJson)) → {u t : List UInt8} →
    MembersWrote ms u t → ms ≠ [] → MembersRenderable ms →
    (w : List UInt8) → Json.Blank w →
    ∃ e, t = u ++ e ++ [0x2c, 0x20] ∧ Json.Members (ScalarText meaning) ms (w ++ e)
  | [], _, _, _, hne, _, _, _ => (hne rfl).elim
  | [(k, x)], _, _, h, _, hr, w, hw => by
    obtain ⟨y, hx, rfl⟩ := h
    obtain ⟨e, rfl, he⟩ := Wrote.spells x hx hr.2.1
    have hm := Json.Member.pair hw (quotedString_stringText hr.1) blank_nil blank_space he blank_nil
    refine ⟨quotedString k ++ 0x3a :: 0x20 :: e, by simp, ?_⟩
    simpa using Json.Members.one hm
  | (k, x) :: m :: ms, _, _, h, _, hr, w, hw => by
    obtain ⟨y, hx, hms⟩ := h
    obtain ⟨e, rfl, he⟩ := Wrote.spells x hx hr.2.1
    obtain ⟨e', rfl, he'⟩ := MembersWrote.spells (m :: ms) hms (by simp) hr.2.2 [0x20] blank_space
    have hm := Json.Member.pair hw (quotedString_stringText hr.1) blank_nil blank_space he blank_nil
    refine ⟨quotedString k ++ 0x3a :: 0x20 :: e ++ 0x2c :: 0x20 :: e', by simp, ?_⟩
    simpa using Json.Members.more hm he'
end

theorem Wrote.denotes_iff {v : BinaryJson} {t : List UInt8} (h : Wrote v [] t) :
    Json.Denotes (ScalarText meaning) v t ↔ Renderable v := by
  constructor
  · intro hden
    have hzero : 0 ∉ t := hden.zero_notMem ScalarText.zero_notMem
    have hcost := hden.cost_le ScalarText.size_le
    obtain ⟨hle, heq⟩ := Wrote.visible_le v h (by simp [Ready]) hzero
    simp only [Json.visible_nil, Nat.zero_add] at hle heq
    exact heq (Nat.le_antisymm hle hcost)
  · intro hr
    obtain ⟨x, rfl, hx⟩ := Wrote.spells meaning v h hr
    simpa using Json.Denotes.text (.refl v) blank_nil hx blank_nil

end

end DBStream.Native.DATA_SOURCE.JsonColumn
