import DBStream.Spec.JsonWritten

/-!
# The text of binary JSON

What `parseJsonType` leaves in memory for an encoded value is what `Wrote` says, and the length that
it returns is the length of that text: first for strings, integers and literals, then for the loops
over entries, then for all values.
-/

namespace DBStream.Native.DATA_SOURCE.JsonColumn

/-! ## Memory -/

/-- The memory from `base` on starts with a text. -/
def Holds (base : Nat) (u : List UInt8) (m : RawMemory) : Prop := m.read base u.length = u

section
variable {base : Nat} {u : List UInt8} {m m' : RawMemory}

theorem Holds.nil : Holds base [] m := rfl

theorem Holds.write (h : Holds base u m) (d : List UInt8) :
    Holds base (u ++ d) (m.write (base + u.length) d) := by
  rw [Holds, List.length_append, RawMemory.read_add, RawMemory.read_write_self,
    RawMemory.read_write_of_disjoint (.inl (Nat.le_refl _)), h]

theorem Holds.shorten {z : List UInt8} (h : Holds base u m) (hz : z <+: u) : Holds base z m := by
  obtain ⟨r, rfl⟩ := hz
  rw [Holds, List.length_append, RawMemory.read_add] at h
  exact (List.append_inj h (by simp)).1

theorem Holds.congr (h : Holds base u m) (hm : ∀ a < base + u.length, m' a = m a) :
    Holds base u m' := by
  rw [Holds, RawMemory.read_congr fun i _ hi => hm i hi, h]

theorem Holds.append_read (h : Holds base u m) (n : Nat) :
    Holds base (u ++ m.read (base + u.length) n) m := by
  rw [Holds, List.length_append, RawMemory.length_read, RawMemory.read_add, h]

theorem Holds.closed (h : Holds base u m) (bracket : UInt8) :
    Holds base (closed bracket u) (m.write (base + u.length - 2) [bracket]) := by
  rw [JsonColumn.closed]
  split
  · exact .nil
  next hlen =>
    -- the bracket is stored two bytes before the end, so this is a store behind a shorter text
    have hz : u.dropLast.dropLast <+: u :=
      List.IsPrefix.trans ( List.dropLast_prefix _) ( List.dropLast_prefix u)
    have hsize : base + u.dropLast.dropLast.length = base + u.length - 2 := by
      simp only [List.length_dropLast]
      omega
    exact hsize ▸ (h.shorten hz).write [bracket]

/-! ## Strings -/

theorem flatten_stores (s : List UInt8) :
    ([[0x22]] ++ s.flatMap stores ++ [[0x22]]).flatten = quotedString s := by
  have hchars : (s.flatMap stores).flatten = s.flatMap quoted := by
    induction s with
    | nil => rfl
    | cons c s ih => simp [ih, quoted]
  simp [quotedString, hchars]

private theorem foldl_store_fst (buf : Nat) (ds : List (List UInt8)) {s : Nat × RawMemory}
    (hs : s.1 < 2 ^ 32) :
    (ds.foldl (store buf) s).1 = (s.1 + ds.flatten.length) % 2 ^ 32 := by
  induction ds generalizing s with
  | nil => exact (Nat.mod_eq_of_lt hs).symm
  | cons d ds ih =>
    rw [List.foldl_cons, ih (Nat.mod_lt _ (by norm_num)), store, Nat.mod_add_mod,
      List.flatten_cons, List.length_append, Nat.add_assoc]

private theorem foldl_store_of_lt {buf a : Nat} (ha : a < buf) (ds : List (List UInt8))
    (s : Nat × RawMemory) : (ds.foldl (store buf) s).2 a = s.2 a := by
  induction ds generalizing s with
  | nil => rfl
  | cons d ds ih =>
    rw [List.foldl_cons, ih]
    exact RawMemory.write_of_lt (by omega)

private theorem foldl_store_holds (buf : Nat) (ds : List (List UInt8)) {s : Nat × RawMemory}
    (hs : s.1 + ds.flatten.length < 2 ^ 32) (hpos : buf + s.1 = base + u.length)
    (h : Holds base u s.2) : Holds base (u ++ ds.flatten) (ds.foldl (store buf) s).2 := by
  induction ds generalizing s u with
  | nil => simpa using h
  | cons d ds ih =>
    rw [List.flatten_cons, List.length_append] at hs
    have hnext : (store buf s d).1 = s.1 + d.length := Nat.mod_eq_of_lt (by omega)
    have hstep : Holds base (u ++ d) (store buf s d).2 := by
      rw [store, hpos]
      exact h.write d
    rw [List.foldl_cons, List.flatten_cons, ← List.append_assoc]
    refine ih (by omega) ?_ hstep
    rw [hnext, List.length_append]
    omega

theorem double_quote_spec (s : List UInt8) (h : Holds base u m) :
    ∃ x, QuotedAs s x ∧ (double_quote s (base + u.length) m).1 = x.length ∧
      Holds base (u ++ x) (double_quote s (base + u.length) m).2 := by
  rw [double_quote]
  have hsize := foldl_store_fst (base + u.length) ([[0x22]] ++ s.flatMap stores ++ [[0x22]])
    (s := (0, m)) (by norm_num)
  have hframe : Holds base u
      (([[0x22]] ++ s.flatMap stores ++ [[0x22]]).foldl (store (base + u.length)) (0, m)).2 :=
    h.congr fun a ha => foldl_store_of_lt ha _ _
  by_cases hfit : (quotedString s).length < 2 ^ 32
  · have hholds := foldl_store_holds (base + u.length)
      ([[0x22]] ++ s.flatMap stores ++ [[0x22]]) (s := (0, m))
      (by rw [flatten_stores, Nat.zero_add]; exact hfit) rfl h
    rw [flatten_stores] at hsize hholds
    rw [Nat.zero_add] at hsize
    exact ⟨quotedString s, ⟨(Nat.mod_eq_of_lt hfit).symm, fun _ => rfl⟩,
      hsize.trans (Nat.mod_eq_of_lt hfit), hholds⟩
  · -- `size` has wrapped around: the text before the buffer is still there
    rw [flatten_stores, Nat.zero_add] at hsize
    refine ⟨_, ⟨?_, fun hlt => absurd hlt hfit⟩, ?_,
      hframe.append_read ((quotedString s).length % 2 ^ 32)⟩
    · rw [RawMemory.length_read]
    · rw [RawMemory.length_read, hsize]

/-! ## Integers -/

/-- A text with a byte 0 is appended. -/
def AppendsZero (base : Nat) (u : List UInt8) (r : Int × RawMemory) : Prop :=
  ∃ x, 0 ∈ x ∧ r.1 = x.length ∧ Holds base (u ++ x) r.2

theorem put_appendsZero {text : List UInt8} (h : Holds base u m) (hzero : 0 ∈ text) :
    AppendsZero base u (put text (base + u.length) m) :=
  ⟨text, hzero, rfl, h.write text⟩

theorem u32toa_sse2_appendsZero (value : Nat) (h : Holds base u m) :
    AppendsZero base u (u32toa_sse2 value (base + u.length) m) := by
  unfold u32toa_sse2
  split
  · exact put_appendsZero h (by simp)
  · split <;> exact put_appendsZero h (by simp)

theorem AppendsZero.minus {f : Nat → RawMemory → Int × RawMemory}
    (hf : ∀ {u m}, Holds base u m → AppendsZero base u (f (base + u.length) m))
    (h : Holds base u m) :
    AppendsZero base u (let (len, m) := f (base + u.length + 1) (m.write (base + u.length) [0x2d])
      (len + 1, m)) := by
  obtain ⟨x, hzero, hlen, hx⟩ := hf (h.write [0x2d])
  rw [List.length_append, ← Nat.add_assoc] at hlen hx
  refine ⟨0x2d :: x, List.mem_cons_of_mem _ hzero, ?_, ?_⟩
  · dsimp only
    rw [List.length_cons, Nat.cast_add, ← hlen]
    rfl
  · simpa using hx

theorem i32toa_sse2_appendsZero (value : Int) (h : Holds base u m) :
    AppendsZero base u (i32toa_sse2 value (base + u.length) m) := by
  unfold i32toa_sse2
  split
  · exact AppendsZero.minus (f := u32toa_sse2 value.natAbs) (u32toa_sse2_appendsZero _) h
  · exact u32toa_sse2_appendsZero _ h

theorem length_Convert8DigitsSSE2 (value : Nat) : (Convert8DigitsSSE2 value).length = 8 := rfl

theorem u64toa_sse2_appendsZero (value : Nat) (h : Holds base u m) :
    AppendsZero base u (u64toa_sse2 value (base + u.length) m) := by
  unfold u64toa_sse2
  split
  · exact u32toa_sse2_appendsZero value h
  split
  · -- the byte 0 behind the digits is stored after the sixteen bytes
    extract_lets va digit m₁
    have hva : va.length = 16 := by
      simp [va, length_Convert8DigitsSSE2]
    have hlen : (va.drop digit).length = 16 - digit := by rw [List.length_drop, hva]
    have hm₁ : Holds base (u ++ va.drop digit) m₁ :=
      (h.write (va.drop digit ++ List.replicate digit 0)).shorten
        (by rw [← List.append_assoc]; exact List.prefix_append _ _)
    have hend := hm₁.write [0]
    rw [List.length_append, hlen, ← Nat.add_assoc, List.append_assoc] at hend
    exact ⟨va.drop digit ++ [0], by simp, by simp [hlen], hend⟩
  · exact put_appendsZero h (by simp)

theorem i64toa_sse2_appendsZero (value : Int) (h : Holds base u m) :
    AppendsZero base u (i64toa_sse2 value (base + u.length) m) := by
  unfold i64toa_sse2
  split
  · exact AppendsZero.minus (f := u64toa_sse2 value.natAbs) (u64toa_sse2_appendsZero _) h
  · exact u64toa_sse2_appendsZero _ h

theorem AppendsZero.of_word {word : Option Nat} {f : Nat → Int × RawMemory} {r : Int × RawMemory}
    (hf : ∀ n, AppendsZero base u (f n)) (h : (word.bind fun n => some (f n)) = some r) :
    AppendsZero base u r := by
  obtain ⟨n, -, hr⟩ := Option.bind_eq_some_iff.mp h
  exact Option.some.inj hr ▸ hf n

variable (writers : Writers)

theorem integer_appendsZero {fuel : Nat} {code : UInt8} {w : Nat} {hasSign : Bool}
    {data : List UInt8} {size : Nat} {r : Int × RawMemory}
    (hcode : (code, w, hasSign) ∈ integerTypes) (hm : Holds base u m)
    (h : parseJsonType writers (fuel + 1) code data size (base + u.length) m = some r) :
    AppendsZero base u r := by
  simp only [integerTypes, List.mem_cons, Prod.mk.injEq, List.not_mem_nil, or_false] at hcode
  obtain ⟨rfl, -⟩ | ⟨rfl, -⟩ | ⟨rfl, -⟩ | ⟨rfl, -⟩ | ⟨rfl, -⟩ | ⟨rfl, -⟩ := hcode
  · exact .of_word (fun n => u32toa_sse2_appendsZero n hm) h
  · exact .of_word (fun n => i32toa_sse2_appendsZero (signed 2 n) hm) h
  · exact .of_word (fun n => i32toa_sse2_appendsZero (signed 4 n) hm) h
  · exact .of_word (fun n => u32toa_sse2_appendsZero n hm) h
  · exact .of_word (fun n => i64toa_sse2_appendsZero (signed 8 n) hm) h
  · exact .of_word (fun n => u64toa_sse2_appendsZero n hm) h

/-! ## Scalars -/

theorem parseJ_LITERAL_literal {b : Option Bool} {data : List UInt8} {size p : Nat}
    (h : StartsWith [literalCode b] data size) :
    parseJ_LITERAL data size p m = some (put (literalText b) p m) := by
  obtain ⟨⟨r, rfl⟩, hsize⟩ := h
  rw [parseJ_LITERAL, if_neg (show ¬size < 1 from Nat.not_lt.mpr hsize)]
  cases b with
  | none => rfl
  | some b => cases b <;> rfl

theorem parseJ_STRING_string {s data : List UInt8} {size p : Nat} (hs : s.length < 2 ^ 32)
    (h : StartsWith (varLength s.length ++ s) data size) :
    parseJ_STRING data size p m = some (if s.length < 2 ^ 31 then
      (((double_quote s p m).1 : Int), (double_quote s p m).2) else (-1, m)) := by
  have hlength : StartsWith (varLength s.length) data size :=
    ⟨(List.prefix_append _ _).trans h.1, Nat.le_trans (by simp) h.2⟩
  rw [parseJ_STRING, read_variable_length_varLength hs hlength]
  by_cases hlt : s.length < 2 ^ 31
  · simp only [if_pos hlt, Option.bind_eq_bind, Option.bind_some, bytesAt_of_append h.1]
    rfl
  · simp only [if_neg hlt]
    rfl

/-! ## Containers -/

theorem array2Str_of_header {parse : UInt8 → Renderer} {w n : Nat} {data : List UInt8}
    {size p : Nat} (h : Header w n (1 + w) data size) :
    array2Str parse w data size p m =
      elementsText parse w data size p (w * 2) n 0 1 (m.write p [0x5b]) := by
  obtain ⟨bytes, hbytes⟩ := Option.isSome_iff_exists.mp h.bytes
  have hroom : ¬size < w * 2 + n * (1 + w) := Nat.not_lt.mpr h.room
  simp only [array2Str, h.count, hbytes, Option.bind_eq_bind, Option.bind_some, if_neg hroom]

theorem object2Str_of_header {parse : UInt8 → Renderer} {w n : Nat} {data : List UInt8}
    {size p : Nat} (h : Header w n ((w + 2) + (1 + w)) data size) :
    object2Str parse w data size p m =
      membersText parse w data size p (w * 2) (w * 2 + n * (w + 2)) n 0 1 (m.write p [0x7b]) := by
  obtain ⟨bytes, hbytes⟩ := Option.isSome_iff_exists.mp h.bytes
  have hroom : ¬size < w * 2 + n * (w + 2) + n * (1 + w) := by
    have := h.room
    rw [Nat.mul_add n] at this
    omega
  simp only [object2Str, h.count, hbytes, Option.bind_eq_bind, Option.bind_some, if_neg hroom]

theorem sizeSub_of_le {a b : Nat} (ha : a < 2 ^ 64) (h : b ≤ a) : sizeSub a b = a - b := by
  rw [sizeSub]
  omega

theorem false_of_error {r : Int × RawMemory} (h : some ((-1 : Int), m) = some r) (hr : 0 ≤ r.1) :
    False := by
  obtain rfl := Option.some.inj h
  exact absurd hr (show ¬(0 : Int) ≤ -1 by decide)

theorem EntryEncodes.call {value : UInt8 → List UInt8 → Nat → Prop} {w : Nat} {data : List UInt8}
    {size p : Nat} (h : EntryEncodes value w data size p) (hw : w < 2 ^ 64)
    (hsize : size < 2 ^ 64) :
    ∃ type data' size', value type data' size' ∧ size' < 2 ^ 64 ∧ ∀ parse dest jss m,
      valueText parse w data size dest p jss m =
        (parse type data' size' (dest + jss) m).bind fun r =>
          if r.1 < 0 then some ((-1 : Int), r.2)
          else some (((jss + r.1.toNat + 2 : Nat) : Int),
            r.2.write (dest + (jss + r.1.toNat)) [0x2c, 0x20]) := by
  obtain ⟨type, offset, htype, hoffset, hvalue⟩ := h
  by_cases hin : inlined w type = true
  · rw [if_pos hin] at hvalue
    -- the value is in the offset itself
    refine ⟨type, _, _, hvalue, hw, fun parse dest jss m => ?_⟩
    simp only [valueText, htype, hoffset, Option.bind_eq_bind, Option.bind_some, if_pos hin]
    rfl
  · rw [if_neg hin] at hvalue
    refine ⟨type, _, _, hvalue.2, by omega, fun parse dest jss m => ?_⟩
    simp only [valueText, htype, hoffset, Option.bind_eq_bind, Option.bind_some, if_neg hin,
      sizeSub_of_le hsize hvalue.1]
    rfl

theorem charsCost_le (s : List UInt8) : Json.charsCost s ≤ 6 * s.length := by
  induction s with
  | nil => simp
  | cons c s ih =>
    have := Json.charCost_le c
    simp only [Json.charsCost_cons, List.length_cons]
    omega

theorem KeyEncodes.length_lt {key : List UInt8} {w : Nat} {data : List UInt8} {p : Nat}
    (h : KeyEncodes key w data p) : (quotedString key).length < 2 ^ 32 := by
  obtain ⟨offset, -, hlen, -⟩ := h
  have hkey : key.length < 2 ^ 16 := by
    simp only [wordAt, bytesAt] at hlen
    split at hlen
    next hfit =>
      have hword := LE.nat_lt (data.slice (p + w) 2)
      rw [Option.some.inj hlen, List.length_slice_of_le hfit] at hword
      exact hword
    next => cases hlen
  have hchars := length_flatMap_quoted_le key
  have hcost := charsCost_le key
  simp only [quotedString, List.length_append, List.length_cons, List.length_nil]
  omega

theorem KeyEncodes.call {key : List UInt8} {w : Nat} {data : List UInt8} {p dest : Nat}
    (h : KeyEncodes key w data p) (jss : Nat) (m : RawMemory) :
    keyText w data dest p jss m =
      some (jss + (double_quote key (dest + jss) m).1 + 2,
        (double_quote key (dest + jss) m).2.write
          (dest + (jss + (double_quote key (dest + jss) m).1)) [0x3a, 0x20]) := by
  obtain ⟨offset, hoffset, hlen, hkey⟩ := h
  simp only [keyText, hoffset, hlen, hkey, Option.bind_eq_bind, Option.bind_some]
  rfl

theorem KeyEncodes.text {key : List UInt8} {w : Nat} {data : List UInt8} {p dest jss : Nat}
    (h : KeyEncodes key w data p) (hm : Holds base u m) (hpos : dest + jss = base + u.length) :
    ∃ size m', keyText w data dest p jss m = some (size, m') ∧
      dest + size = base + (u ++ quotedString key ++ [0x3a, 0x20]).length ∧
      Holds base (u ++ quotedString key ++ [0x3a, 0x20]) m' := by
  obtain ⟨x, hx, hsize, hholds⟩ := double_quote_spec key hm
  obtain rfl := hx.2 h.length_lt
  refine ⟨_, _, h.call jss m, ?_, ?_⟩
  · rw [hpos, hsize]
    simp only [List.length_append, List.length_cons, List.length_nil]
    omega
  · have hcolon := hholds.write [0x3a, 0x20]
    rw [List.length_append, ← Nat.add_assoc, ← hpos, ← hsize, hpos, ← hpos, Nat.add_assoc] at hcolon
    exact hcolon

def Rendered (base : Nat) (v : BinaryJson) (u : List UInt8) (r : Int × RawMemory) : Prop :=
  ∃ t, Wrote v u t ∧ Holds base t r.2 ∧ (t.length : Int) = u.length + r.1

/-- A function that renders a value wherever it is encoded. -/
def Renders (parse : UInt8 → Renderer) (base : Nat) (v : BinaryJson) : Prop :=
  ∀ {type data size u m r}, Encodes v type data size → size < 2 ^ 64 →
    parse type data size (base + u.length) m = some r → 0 ≤ r.1 → Holds base u m →
    Rendered base v u r

theorem Renders.entry {parse : UInt8 → Renderer} {x : BinaryJson} (hx : Renders parse base x)
    {w : Nat} {data : List UInt8} {size p dest jss : Nat} {r : Int × RawMemory}
    (henc : EntryEncodes (Encodes x) w data size p) (hw : w < 2 ^ 64) (hsize : size < 2 ^ 64)
    (h : valueText parse w data size dest p jss m = some r) (hr : 0 ≤ r.1)
    (hpos : dest + jss = base + u.length) (hm : Holds base u m) :
    ∃ y, Wrote x u y ∧ Holds base (y ++ [0x2c, 0x20]) r.2 ∧
      dest + r.1.toNat = base + (y ++ [0x2c, 0x20]).length := by
  obtain ⟨type, data', size', henc, hsize', hcall⟩ := henc.call hw hsize
  rw [hcall, hpos] at h
  obtain ⟨⟨len, m₁⟩, hparse, h⟩ := Option.bind_eq_some_iff.mp h
  split at h
  next => exact (false_of_error h hr).elim
  next hlen =>
    obtain rfl := Option.some.inj h
    obtain ⟨y, hy, hholds, hylen⟩ := hx henc hsize' hparse (Int.not_lt.mp hlen) hm
    have hdest : dest + (jss + len.toNat) = base + y.length := by omega
    refine ⟨y, hy, ?_, ?_⟩
    · rw [hdest]
      exact hholds.write [0x2c, 0x20]
    · simp only [List.length_append, List.length_cons, List.length_nil, Int.toNat_natCast]
      omega

theorem length_closed (bracket : UInt8) (y : List UInt8) :
    (closed bracket y).length = y.length - 1 := by
  rw [closed]
  split
  · simp only [List.length_nil]
    omega
  · simp only [List.length_append, List.length_dropLast, List.length_cons, List.length_nil]
    omega

/-! ## Values -/

theorem renders_scalar (fuel base : Nat) (a : Scalar) :
    Renders (parseJsonType writers fuel) base (.scalar a) := by
  intro type data size u m r henc hsize h hr hm
  obtain ⟨body, hbody, hstart⟩ := henc
  cases fuel with
  | zero => cases h
  | succ fuel =>
    cases hbody with
    | literal b =>
      have hput : parseJ_LITERAL data size (base + u.length) m = some r := h
      rw [parseJ_LITERAL_literal hstart] at hput
      obtain rfl := Option.some.inj hput
      exact ⟨u ++ literalText b, rfl, hm.write (literalText b), by simp [put]⟩
    | integer hcode _ =>
      obtain ⟨x, hzero, hlen, hx⟩ := integer_appendsZero writers hcode hm h
      exact ⟨u ++ x, ⟨x, hzero, rfl⟩, hx, by simp [hlen]⟩
    | field _ _ =>
      -- there is nothing at place 0xF of the table
      cases h

theorem renders_string (fuel base : Nat) (s : List UInt8) :
    Renders (parseJsonType writers fuel) base (.string s) := by
  intro type data size u m r henc hsize h hr hm
  obtain ⟨rfl, hlen, hstart⟩ := henc
  cases fuel with
  | zero => cases h
  | succ fuel =>
    have hstring : parseJ_STRING data size (base + u.length) m = some r := h
    rw [parseJ_STRING_string hlen hstart] at hstring
    split at hstring
    next hlt =>
      obtain rfl := Option.some.inj hstring
      obtain ⟨x, hx, hxlen, hholds⟩ := double_quote_spec s hm
      exact ⟨u ++ x, ⟨hlt, x, hx, rfl⟩, hholds, by simp [hxlen]⟩
    next => exact (false_of_error hstring hr).elim -- the length cannot be read

/-- A loop over elements that renders each of them where it is encoded. -/
def ElementsRender (parse : UInt8 → Renderer) (base : Nat) (xs : List BinaryJson) : Prop :=
  ∀ {w data size values i dest jss u m r}, ElementsEncode xs w data size values i → w < 2 ^ 64 →
    size < 2 ^ 64 → elementsText parse w data size dest values xs.length i jss m = some r →
    0 ≤ r.1 → dest + jss = base + u.length → Holds base u m →
    ∃ y, ElementsWrote xs u y ∧ Holds base (closed 0x5d y) r.2 ∧
      dest + r.1.toNat + 1 = base + y.length

def MembersRender (parse : UInt8 → Renderer) (base : Nat)
    (ms : List (List UInt8 × BinaryJson)) : Prop :=
  ∀ {w data size keys values i dest jss u m r}, MembersEncode ms w data size keys values i →
    w < 2 ^ 64 → size < 2 ^ 64 →
    membersText parse w data size dest keys values ms.length i jss m = some r →
    0 ≤ r.1 → dest + jss = base + u.length → Holds base u m →
    ∃ y, MembersWrote ms u y ∧ Holds base (closed 0x7d y) r.2 ∧
      dest + r.1.toNat + 1 = base + y.length

theorem Holds.closeText {dest jss : Nat} (hm : Holds base u m) (hpos : dest + jss = base + u.length)
    (bracket : UInt8) (hr : 0 ≤ (closeText dest bracket jss m).1) :
    Holds base (JsonColumn.closed bracket u) (closeText dest bracket jss m).2 ∧
      dest + (JsonColumn.closeText dest bracket jss m).1.toNat + 1 = base + u.length := by
  simp only [JsonColumn.closeText] at hr ⊢
  rw [hpos]
  exact ⟨hm.closed bracket, by omega⟩

theorem ElementsRender.nil {parse : UInt8 → Renderer} : ElementsRender parse base [] := by
  intro w data size values i dest jss u m r _ _ _ h hr hpos hm
  obtain rfl := Option.some.inj h
  exact ⟨u, rfl, hm.closeText hpos 0x5d hr⟩

theorem ElementsRender.cons {parse : UInt8 → Renderer} {x : BinaryJson} {xs : List BinaryJson}
    (hx : Renders parse base x) (hxs : ElementsRender parse base xs) :
    ElementsRender parse base (x :: xs) := by
  intro w data size values i dest jss u m r henc hw hsize h hr hpos hm
  simp only [List.length_cons, elementsText, Option.bind_eq_bind, Option.bind_eq_some_iff] at h
  obtain ⟨⟨len, m₁⟩, hvalue, h⟩ := h
  split at h
  next => exact (false_of_error h hr).elim
  next hlen =>
    obtain ⟨y, hy, hholds, hnext⟩ := hx.entry henc.1 hw hsize hvalue (Int.not_lt.mp hlen) hpos hm
    obtain ⟨t, ht, hend⟩ := hxs henc.2 hw hsize h hr hnext hholds
    exact ⟨t, ⟨y, hy, ht⟩, hend⟩

theorem MembersRender.nil {parse : UInt8 → Renderer} : MembersRender parse base [] := by
  intro w data size keys values i dest jss u m r _ _ _ h hr hpos hm
  obtain rfl := Option.some.inj h
  exact ⟨u, rfl, hm.closeText hpos 0x7d hr⟩

theorem MembersRender.cons {parse : UInt8 → Renderer} {k : List UInt8} {x : BinaryJson}
    {ms : List (List UInt8 × BinaryJson)} (hx : Renders parse base x)
    (hms : MembersRender parse base ms) : MembersRender parse base ((k, x) :: ms) := by
  intro w data size keys values i dest jss u m r henc hw hsize h hr hpos hm
  obtain ⟨hkey, hentry, hrest⟩ := henc
  obtain ⟨jss', m', hk, hpos', hm'⟩ := hkey.text hm hpos
  simp only [List.length_cons, membersText, hk, Option.bind_eq_bind, Option.bind_some,
    Option.bind_eq_some_iff] at h
  obtain ⟨⟨len, m₁⟩, hvalue, h⟩ := h
  split at h
  next => exact (false_of_error h hr).elim
  next hlen =>
    obtain ⟨y, hy, hholds, hnext⟩ :=
      hx.entry hentry hw hsize hvalue (Int.not_lt.mp hlen) hpos' hm'
    obtain ⟨t, ht, hend⟩ := hms hrest hw hsize h hr hnext hholds
    exact ⟨t, ⟨y, hy, ht⟩, hend⟩

theorem rendered_of_closed {bracket : UInt8} {y : List UInt8} {r : Int × RawMemory}
    (hr : 0 ≤ r.1) (hholds : Holds base (closed bracket y) r.2)
    (hend : base + u.length + r.1.toNat + 1 = base + y.length) :
    Holds base (closed bracket y) r.2 ∧ ((closed bracket y).length : Int) = u.length + r.1 := by
  have hne : y ≠ [] := List.length_pos_iff.mp (by omega)
  refine ⟨hholds, ?_⟩
  rw [length_closed]
  omega

theorem renders_array {fuel : Nat} {xs : List BinaryJson}
    (hxs : ElementsRender (parseJsonType writers fuel) base xs) :
    Renders (parseJsonType writers (fuel + 1)) base (.array xs) := by
  intro type data size u m r henc hsize h hr hm
  obtain ⟨w, htype, hheader, helements⟩ := henc
  have hcall : array2Str (parseJsonType writers fuel) w data size (base + u.length) m = some r ∧
      w < 2 ^ 64 := by
    simp only [List.mem_cons, Prod.mk.injEq, List.not_mem_nil, or_false] at htype
    obtain ⟨rfl, rfl⟩ | ⟨rfl, rfl⟩ := htype <;> exact ⟨h, by norm_num⟩
  rw [array2Str_of_header hheader] at hcall
  obtain ⟨y, hy, hholds, hend⟩ := hxs helements hcall.2 hsize hcall.1 hr (by simp [Nat.add_assoc])
    (hm.write [0x5b])
  exact ⟨_, ⟨y, hy, rfl⟩, rendered_of_closed hr hholds hend⟩

theorem renders_object {fuel : Nat} {ms : List (List UInt8 × BinaryJson)}
    (hms : MembersRender (parseJsonType writers fuel) base ms) :
    Renders (parseJsonType writers (fuel + 1)) base (.object ms) := by
  intro type data size u m r henc hsize h hr hm
  obtain ⟨w, htype, hheader, hmembers⟩ := henc
  have hcall : object2Str (parseJsonType writers fuel) w data size (base + u.length) m = some r ∧
      w < 2 ^ 64 := by
    simp only [List.mem_cons, Prod.mk.injEq, List.not_mem_nil, or_false] at htype
    obtain ⟨rfl, rfl⟩ | ⟨rfl, rfl⟩ := htype <;> exact ⟨h, by norm_num⟩
  rw [object2Str_of_header hheader] at hcall
  obtain ⟨y, hy, hholds, hend⟩ := hms hmembers hcall.2 hsize hcall.1 hr (by simp [Nat.add_assoc])
    (hm.write [0x7b])
  exact ⟨_, ⟨y, hy, rfl⟩, rendered_of_closed hr hholds hend⟩

theorem renders_zero (v : BinaryJson) : Renders (parseJsonType writers 0) base v := by
  intro type data size u m r _ _ h
  cases h

mutual
theorem renders : (v : BinaryJson) → (fuel : Nat) → Renders (parseJsonType writers fuel) base v
  | .scalar a, fuel => renders_scalar writers fuel base a
  | .string s, fuel => renders_string writers fuel base s
  | .array xs, fuel =>
    match fuel with
    | 0 => renders_zero writers (.array xs)
    | fuel + 1 => renders_array writers (elementsRender xs fuel)
  | .object ms, fuel =>
    match fuel with
    | 0 => renders_zero writers (.object ms)
    | fuel + 1 => renders_object writers (membersRender ms fuel)

theorem elementsRender : (xs : List BinaryJson) → (fuel : Nat) →
    ElementsRender (parseJsonType writers fuel) base xs
  | [], _ => ElementsRender.nil
  | x :: xs, fuel => ElementsRender.cons (renders x fuel) (elementsRender xs fuel)

theorem membersRender : (ms : List (List UInt8 × BinaryJson)) → (fuel : Nat) →
    MembersRender (parseJsonType writers fuel) base ms
  | [], _ => MembersRender.nil
  | (_, x) :: ms, fuel => MembersRender.cons (renders x fuel) (membersRender ms fuel)
end

end

end DBStream.Native.DATA_SOURCE.JsonColumn
