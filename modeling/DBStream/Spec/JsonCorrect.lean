import DBStream.Spec.JsonRendered

/-!
# When binary JSON is rendered

A renderable value has a text, and it is the only kind of value whose text is a JSON text that
denotes it.
-/

namespace DBStream.Native.DATA_SOURCE.JsonColumn

section
variable (writers : Writers)

/-! ## Renderable values are rendered -/

/-- With enough fuel there is a length, wherever the text goes. -/
def Returns (value : (fuel p : Nat) → RawMemory → Option (Int × RawMemory)) : Prop :=
  ∃ n, ∀ fuel ≥ n, ∀ p m, ∃ r, value fuel p m = some r ∧ 0 ≤ r.1

theorem Returns.succ {value value' : (fuel p : Nat) → RawMemory → Option (Int × RawMemory)}
    (h : Returns value) (hsucc : ∀ fuel p m, value' (fuel + 1) p m = value fuel p m) :
    Returns value' := by
  obtain ⟨n, hn⟩ := h
  refine ⟨n + 1, fun fuel hfuel p m => ?_⟩
  obtain ⟨fuel, rfl⟩ := Nat.exists_eq_add_of_le' (show 1 ≤ fuel by omega)
  rw [hsucc]
  exact hn fuel (by omega) p m

theorem Returns.of_now {value : (fuel p : Nat) → RawMemory → Option (Int × RawMemory)}
    (h : ∀ fuel p m, ∃ r, value (fuel + 1) p m = some r ∧ 0 ≤ r.1) : Returns value := by
  refine ⟨1, fun fuel hfuel p m => ?_⟩
  obtain ⟨fuel, rfl⟩ := Nat.exists_eq_add_of_le' hfuel
  exact h fuel p m

def ReturnsValue (v : BinaryJson) : Prop :=
  ∀ {type data size}, Encodes v type data size → size < 2 ^ 64 →
    Returns fun fuel p m => parseJsonType writers fuel type data size p m

def ReturnsElements (xs : List BinaryJson) : Prop :=
  ∀ {w data size values i}, ElementsEncode xs w data size values i → w < 2 ^ 64 → size < 2 ^ 64 →
    ∃ n, ∀ fuel ≥ n, ∀ dest jss m, 1 ≤ jss → ∃ r,
      elementsText (parseJsonType writers fuel) w data size dest values xs.length i jss m = some r ∧
        0 ≤ r.1

def ReturnsMembers (ms : List (List UInt8 × BinaryJson)) : Prop :=
  ∀ {w data size keys values i}, MembersEncode ms w data size keys values i → w < 2 ^ 64 →
    size < 2 ^ 64 → ∃ n, ∀ fuel ≥ n, ∀ dest jss m, 1 ≤ jss → ∃ r,
      membersText (parseJsonType writers fuel) w data size dest keys values ms.length i jss m =
        some r ∧ 0 ≤ r.1

theorem returns_literal (b : Option Bool) : ReturnsValue writers (.scalar (.literal b)) := by
  intro type data size henc _
  obtain ⟨body, hbody, hstart⟩ := henc
  cases hbody with
  | literal b =>
    exact .of_now fun fuel p m => ⟨_, parseJ_LITERAL_literal hstart, Int.natCast_nonneg _⟩

private theorem returns_string {s : List UInt8} (hs : s.length < 2 ^ 31) :
    ReturnsValue writers (.string s) := by
  intro type data size henc _
  obtain ⟨rfl, hlen, hstart⟩ := henc
  refine .of_now fun fuel p m => ⟨_, parseJ_STRING_string hlen hstart, ?_⟩
  rw [if_pos hs]
  exact Int.natCast_nonneg _

theorem ReturnsValue.entry {x : BinaryJson} (hx : ReturnsValue writers x) {w : Nat}
    {data : List UInt8} {size p : Nat} (henc : EntryEncodes (Encodes x) w data size p)
    (hw : w < 2 ^ 64) (hsize : size < 2 ^ 64) :
    ∃ n, ∀ fuel ≥ n, ∀ dest jss m, ∃ (jss' : Nat) (m' : RawMemory),
      valueText (parseJsonType writers fuel) w data size dest p jss m = some ((jss' : Int), m') ∧
        1 ≤ jss' := by
  obtain ⟨type, data', size', henc, hsize', hcall⟩ := henc.call hw hsize
  obtain ⟨n, hn⟩ := hx henc hsize'
  refine ⟨n, fun fuel hfuel dest jss m => ?_⟩
  obtain ⟨r, hr, hlen⟩ := hn fuel hfuel (dest + jss) m
  dsimp only at hr
  refine ⟨jss + r.1.toNat + 2, r.2.write (dest + (jss + r.1.toNat)) [0x2c, 0x20], ?_, by omega⟩
  rw [hcall, hr]
  simp only [Option.bind_some, if_neg (Int.not_lt.mpr hlen)]

theorem closeText_nonneg {jss : Nat} (h : 1 ≤ jss) (dest : Nat) (bracket : UInt8) (m : RawMemory) :
    0 ≤ (closeText dest bracket jss m).1 := by
  simp only [closeText]
  omega

theorem ReturnsElements.nil : ReturnsElements writers [] := fun _ _ _ =>
  ⟨0, fun _ _ dest _ m hjss => ⟨_, rfl, closeText_nonneg hjss dest 0x5d m⟩⟩

theorem ReturnsElements.cons {x : BinaryJson} {xs : List BinaryJson} (hx : ReturnsValue writers x)
    (hxs : ReturnsElements writers xs) : ReturnsElements writers (x :: xs) := by
  intro w data size values i henc hw hsize
  obtain ⟨n, hn⟩ := hx.entry writers henc.1 hw hsize
  obtain ⟨k, hk⟩ := hxs henc.2 hw hsize
  refine ⟨max n k, fun fuel hfuel dest jss m _ => ?_⟩
  obtain ⟨jss', m', hvalue, hpos⟩ := hn fuel (by omega) dest jss m
  obtain ⟨r, hr, hlen⟩ := hk fuel (by omega) dest jss' m' hpos
  refine ⟨r, ?_, hlen⟩
  simp only [List.length_cons, elementsText, hvalue, Option.bind_eq_bind, Option.bind_some,
    if_neg (Int.not_lt.mpr (Int.natCast_nonneg jss')), Int.toNat_natCast]
  exact hr

theorem ReturnsMembers.nil : ReturnsMembers writers [] := fun _ _ _ =>
  ⟨0, fun _ _ dest _ m hjss => ⟨_, rfl, closeText_nonneg hjss dest 0x7d m⟩⟩

theorem ReturnsMembers.cons {k : List UInt8} {x : BinaryJson} {ms : List (List UInt8 × BinaryJson)}
    (hx : ReturnsValue writers x) (hms : ReturnsMembers writers ms) :
    ReturnsMembers writers ((k, x) :: ms) := by
  intro w data size keys values i henc hw hsize
  obtain ⟨hkey, hentry, hrest⟩ := henc
  obtain ⟨n, hn⟩ := hx.entry writers hentry hw hsize
  obtain ⟨l, hl⟩ := hms hrest hw hsize
  refine ⟨max n l, fun fuel hfuel dest jss m _ => ?_⟩
  obtain ⟨jss', m', hvalue, hpos⟩ := hn fuel (by omega) dest
    (jss + (double_quote k (dest + jss) m).1 + 2)
    ((double_quote k (dest + jss) m).2.write (dest + (jss + (double_quote k (dest + jss) m).1))
      [0x3a, 0x20])
  obtain ⟨r, hr, hlen⟩ := hl fuel (by omega) dest jss' m' hpos
  refine ⟨r, ?_, hlen⟩
  simp only [List.length_cons, membersText, hkey.call, hvalue, Option.bind_eq_bind,
    Option.bind_some, if_neg (Int.not_lt.mpr (Int.natCast_nonneg jss')), Int.toNat_natCast]
  exact hr

private theorem returns_array {xs : List BinaryJson} (hxs : ReturnsElements writers xs) :
    ReturnsValue writers (.array xs) := by
  intro type data size henc hsize
  obtain ⟨w, htype, hheader, helements⟩ := henc
  have hw : w < 2 ^ 64 ∧ ∀ fuel p m, parseJsonType writers (fuel + 1) type data size p m =
      array2Str (parseJsonType writers fuel) w data size p m := by
    simp only [List.mem_cons, Prod.mk.injEq, List.not_mem_nil, or_false] at htype
    obtain ⟨rfl, rfl⟩ | ⟨rfl, rfl⟩ := htype <;> exact ⟨by norm_num, fun _ _ _ => rfl⟩
  obtain ⟨n, hn⟩ := hxs helements hw.1 hsize
  refine Returns.succ ⟨n, fun fuel hfuel p m => ?_⟩ hw.2
  rw [array2Str_of_header hheader]
  exact hn fuel hfuel p 1 _ (Nat.le_refl 1)

theorem returns_object {ms : List (List UInt8 × BinaryJson)} (hms : ReturnsMembers writers ms) :
    ReturnsValue writers (.object ms) := by
  intro type data size henc hsize
  obtain ⟨w, htype, hheader, hmembers⟩ := henc
  have hw : w < 2 ^ 64 ∧ ∀ fuel p m, parseJsonType writers (fuel + 1) type data size p m =
      object2Str (parseJsonType writers fuel) w data size p m := by
    simp only [List.mem_cons, Prod.mk.injEq, List.not_mem_nil, or_false] at htype
    obtain ⟨rfl, rfl⟩ | ⟨rfl, rfl⟩ := htype <;> exact ⟨by norm_num, fun _ _ _ => rfl⟩
  obtain ⟨n, hn⟩ := hms hmembers hw.1 hsize
  refine Returns.succ ⟨n, fun fuel hfuel p m => ?_⟩ hw.2
  rw [object2Str_of_header hheader]
  exact hn fuel hfuel p 1 _ (Nat.le_refl 1)

mutual
theorem Renderable.returns : (v : BinaryJson) → Renderable v → ReturnsValue writers v
  | .scalar (.literal b), _ => returns_literal writers b
  | .scalar (.integer _), h => h.elim
  | .scalar (.field _ _), h => h.elim
  | .string _, h => returns_string writers (Quotable.length_lt h)
  | .array xs, h => returns_array writers (ElementsRenderable.returns xs h.2)
  | .object ms, h => returns_object writers (MembersRenderable.returns ms h.2)

theorem ElementsRenderable.returns : (xs : List BinaryJson) → ElementsRenderable xs →
    ReturnsElements writers xs
  | [], _ => ReturnsElements.nil writers
  | x :: xs, h =>
    ReturnsElements.cons writers (Renderable.returns x h.1) (ElementsRenderable.returns xs h.2)

theorem MembersRenderable.returns : (ms : List (List UInt8 × BinaryJson)) → MembersRenderable ms →
    ReturnsMembers writers ms
  | [], _ => ReturnsMembers.nil writers
  | (_, x) :: ms, h =>
    ReturnsMembers.cons writers (Renderable.returns x h.2.1) (MembersRenderable.returns ms h.2.2)
end

end

/-! ## `bjson2Str` -/

/-- `bjson2Str` writes a JSON text that denotes the value, and returns the length of this text. -/
def RendersJson (writers : Writers) (meaning : UInt8 → List UInt8 → ℚ ⊕ List UInt8)
    (v : BinaryJson) (bjson : List UInt8) (bjsonSize jsonStr : Nat) (m : RawMemory) : Prop :=
  ∃ (fuel len : Nat) (m' : RawMemory),
    bjson2Str writers fuel bjson bjsonSize jsonStr m = some ((len : Int), m') ∧
      Json.Denotes (ScalarText meaning) v (m'.read jsonStr len)

section
variable {writers : Writers} {meaning : UInt8 → List UInt8 → ℚ ⊕ List UInt8} {v : BinaryJson}
  {bjson : List UInt8} {bjsonSize jsonStr : Nat} {m : RawMemory}

theorem Encoding.call (h : Encoding v bjson bjsonSize) (writers : Writers) (jsonStr : Nat)
    (m : RawMemory) :
    ∃ type, Encodes v type (bjson.drop 1) (bjsonSize - 1) ∧ ∀ fuel,
      bjson2Str writers fuel bjson bjsonSize jsonStr m =
        parseJsonType writers fuel type (bjson.drop 1) (bjsonSize - 1) jsonStr m := by
  obtain ⟨type, htype, henc⟩ := h.encodes
  refine ⟨type, henc, fun fuel => ?_⟩
  simp only [bjson2Str, htype, Option.bind_eq_bind, Option.bind_some,
    sizeSub_of_le h.size_lt h.size_pos]

theorem Encoding.wrote (h : Encoding v bjson bjsonSize) {fuel len : Nat} {m' : RawMemory}
    (hcall : bjson2Str writers fuel bjson bjsonSize jsonStr m = some ((len : Int), m')) :
    Wrote v [] (m'.read jsonStr len) := by
  obtain ⟨type, henc, heq⟩ := h.call writers jsonStr m
  have hparse : parseJsonType writers fuel type (bjson.drop 1) (bjsonSize - 1)
      (jsonStr + ([] : List UInt8).length) m = some ((len : Int), m') := (heq fuel).symm.trans hcall
  have hsize := h.size_lt
  obtain ⟨t, ht, hholds, hlen⟩ :=
    renders writers v fuel henc (by omega) hparse (Int.natCast_nonneg len) Holds.nil
  obtain rfl : t.length = len := by simpa using hlen
  exact hholds.symm ▸ ht

theorem Encoding.renderable (h : Encoding v bjson bjsonSize)
    (hrenders : RendersJson writers meaning v bjson bjsonSize jsonStr m) : Renderable v := by
  obtain ⟨fuel, len, m', hcall, hden⟩ := hrenders
  exact ((h.wrote hcall).denotes_iff meaning).mp hden

theorem Encoding.renders (h : Encoding v bjson bjsonSize) (hv : Renderable v) :
    RendersJson writers meaning v bjson bjsonSize jsonStr m := by
  obtain ⟨type, henc, heq⟩ := h.call writers jsonStr m
  have hsize := h.size_lt
  obtain ⟨n, hn⟩ := Renderable.returns writers v hv henc (by omega)
  obtain ⟨⟨len, m'⟩, hr, hlen⟩ := hn n (Nat.le_refl n) jsonStr m
  obtain ⟨len, rfl⟩ := Int.eq_ofNat_of_zero_le hlen
  have hcall : bjson2Str writers n bjson bjsonSize jsonStr m = some ((len : Int), m') :=
    (heq n).trans hr
  exact ⟨n, len, m', hcall, ((h.wrote hcall).denotes_iff meaning).mpr hv⟩

end

/-- The text that is written for a value in the binary encoding is a JSON text that denotes it, and
the length that is returned is the length of this text, if and only if the value is renderable. -/
theorem bjson2Str_denotes_iff (writers : Writers) (meaning : UInt8 → List UInt8 → ℚ ⊕ List UInt8)
    {v : BinaryJson} {bjson : List UInt8} {bjsonSize : Nat} (h : Encoding v bjson bjsonSize)
    (jsonStr : Nat) (m : RawMemory) :
    RendersJson writers meaning v bjson bjsonSize jsonStr m ↔ Renderable v :=
  ⟨h.renderable, h.renders⟩

private theorem encoding_object : Encoding (.object [([0x6b], .scalar (.literal (some true)))])
    [0x0, 1, 0, 12, 0, 11, 0, 1, 0, 0x4, 1, 0, 0x6b] 13 where
  size_lt := by norm_num
  size_pos := by norm_num
  encodes := by
    refine ⟨0x0, rfl, 2, by decide, ⟨rfl, rfl, by decide⟩, ⟨11, rfl, rfl, rfl⟩, ?_, trivial⟩
    exact ⟨0x4, 1, rfl, rfl, [1], .literal (some true), ⟨[0, 0x6b], rfl⟩, by decide⟩

theorem renderable_object :
    Renderable (.object [([0x6b], .scalar (.literal (some true)))]) := by
  simp [Renderable, MembersRenderable, Plain]

theorem bjson2Str_denotes_iff_object :
    RendersJson ⟨fun _ _ m => (0, m), fun _ _ _ _ => none⟩ (fun _ _ => .inl 0)
      (.object [([0x6b], .scalar (.literal (some true)))])
      [0x0, 1, 0, 12, 0, 11, 0, 1, 0, 0x4, 1, 0, 0x6b] 13 64 (fun _ => 0) :=
  (bjson2Str_denotes_iff _ _ encoding_object 64 (fun _ => 0)).mpr renderable_object

theorem encoding_integer : Encoding (.scalar (.integer 1)) [0x5, 1, 0] 3 where
  size_lt := by norm_num
  size_pos := by norm_num
  encodes := by
    have hbytes : LE.bytes 2 ((1 : Int) % 2 ^ (8 * 2)).toNat = [1, 0] := by decide
    refine ⟨0x5, rfl, [1, 0], ?_, ⟨[], rfl⟩, by decide⟩
    exact hbytes ▸ @ScalarEncodes.integer 0x5 2 true 1 (by decide) (by norm_num [InRange])

theorem not_renders_integer : Encoding (.scalar (.integer 1)) [0x5, 1, 0] 3 ∧
    ∀ writers meaning jsonStr m,
      ¬RendersJson writers meaning (.scalar (.integer 1)) [0x5, 1, 0] 3 jsonStr m :=
  ⟨encoding_integer, fun _ _ _ _ h => encoding_integer.renderable h⟩

end DBStream.Native.DATA_SOURCE.JsonColumn
