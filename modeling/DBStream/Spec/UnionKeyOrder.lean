import DBStream.ForStd.ThreeWay
import DBStream.Native.UnionKeyBytes
import DBStream.Spec.VarIndexCorrect

/-!
# The order of union keys

`unionKey::compare` goes through the columns and answers for the first one that differs.  For a
column of 32 bits the answer is the difference as an `int`, which has the wrong sign when the
difference is not an `int`.  `operator==` and `hash` go by the bytes, and by the size a key carries.
-/

namespace DBStream.Native

open ThreeWay

/-- The integer types of `unionKey::compare`. -/
def ColumnType.unionInteger : ColumnType → Bool
  | .T_UINT8 | .T_INT8 | .T_UINT16 | .T_INT16 | .T_UINT32 | .T_INT32 | .T_UINT64 | .T_INT64 => true
  | _ => false

/-- The difference of two values is an `int`, if the column is compared by it. -/
def ColumnType.Near (t : ColumnType) (x y : List Int) : Prop :=
  t = .T_UINT32 ∨ t = .T_INT32 → ∀ n ∈ x, ∀ m ∈ y, -2 ^ 31 ≤ n - m ∧ n - m < 2 ^ 31

namespace UnionKey

/-- The first column in which the values differ does not make the difference overflow. -/
def Near : List UniqueKeyTypePair → List (List Int) → List (List Int) → Prop
  | c :: cs, x :: xs, y :: ys => if x = y then Near cs xs ys else c.type.Near x y
  | _, _, _ => True

def Typed (columns : List UniqueKeyTypePair) : Prop :=
  ∀ c ∈ columns, c.type.unionInteger = true ∨ c.type = .T_STRING

variable {F : FloatOps} {t : ColumnType} {c : UniqueKeyTypePair} {columns : List UniqueKeyTypePair}
  {ukMeta : UnionKeyMeta} {a b x y : List UInt8} {key : Key} {r : Row} {old : Bool}

/-! ## One integer column -/

private theorem columnValue_integer (ht : t.unionInteger) (d : List UInt8) :
    columnValue t d = [intValue t d] := by
  cases t <;> first | rfl | cases ht

theorem intValue_append (ha : a.length = t.columnTypeSize) (rest : List UInt8) :
    intValue t (a ++ rest) = intValue t a := by
  simp [intValue, ← ha]

private theorem intValue_range (ht : t = .T_UINT32 ∨ t = .T_INT32) :
    ∃ low, ∀ d : List UInt8, 0 ≤ intValue t d + low ∧ intValue t d + low < 2 ^ 32 := by
  have hnat : ∀ d : List UInt8, LE.nat (d.take 4) < 2 ^ 32 := fun d =>
    (LE.nat_lt _).trans_le (Nat.pow_le_pow_right (by omega) (List.length_take_le 4 d))
  rcases ht with rfl | rfl
  · refine ⟨0, fun d => ?_⟩
    have hlt := hnat d
    simp [intValue, ColumnType.signed, ColumnType.columnTypeSize]
    omega
  · refine ⟨2 ^ 31, fun d => ?_⟩
    have hlt := hnat d
    simp only [intValue, ColumnType.signed, ColumnType.columnTypeSize, true_and]
    split <;> omega

private theorem toInt32_sub {n m low : Int} (hn : 0 ≤ n + low ∧ n + low < 2 ^ 32)
    (hm : 0 ≤ m + low ∧ m + low < 2 ^ 32) : (toInt32 (n - m) = 0 ↔ n = m) ∧
      (n ≠ m → ((toInt32 (n - m)).sign = order n m ↔ -2 ^ 31 ≤ n - m ∧ n - m < 2 ^ 31)) := by
  have hzero : toInt32 (n - m) = 0 ↔ n = m := by
    unfold toInt32
    omega
  refine ⟨hzero, fun hne => ⟨fun hsign => ?_, fun hfits => ?_⟩⟩
  · have hneg := neg_iff_of_sign hsign
    have hpos := pos_iff_of_sign hsign
    unfold toInt32 at hneg hpos
    omega
  · have heq : toInt32 (n - m) = n - m := by
      unfold toInt32
      omega
    exact sign_eq_order (by omega) (by omega)

private theorem compareColumn_integer (ht : t.unionInteger) (a b : List UInt8) :
    ∃ n, compareColumn F t a b = .ok n ∧ (n = 0 ↔ intValue t a = intValue t b) ∧
      (intValue t a ≠ intValue t b → (n.sign = order (intValue t a) (intValue t b) ↔
        t.Near [intValue t a] [intValue t b])) := by
  have hsub : ∀ n m : Int, (n - m).sign = order n m := fun n m =>
    sign_eq_order (by omega) (by omega)
  have hthree : ∀ n m : Int, (compareInt n m).sign = order n m := fun n m =>
    sign_eq_order compareInt_neg compareInt_pos
  by_cases h32 : t = .T_UINT32 ∨ t = .T_INT32
  · -- the difference is cut
    obtain ⟨low, hlow⟩ := intValue_range h32
    obtain ⟨hzero, hsign⟩ := toInt32_sub (hlow a) (hlow b)
    refine ⟨toInt32 (intValue t a - intValue t b), ?_, hzero, fun hne => ?_⟩
    · rcases h32 with rfl | rfl <;> rfl
    · rw [hsign hne]
      simp [ColumnType.Near, h32]
  · have hnear : t.Near [intValue t a] [intValue t b] := fun h => absurd h h32
    have hother : (compareColumn F t a b = .ok (intValue t a - intValue t b)) ∨
        compareColumn F t a b = .ok (compareInt (intValue t a) (intValue t b)) := by
      cases t <;> first
        | exact .inl rfl
        | exact .inr rfl
        | (simp at h32; done)
        | cases ht
    rcases hother with h | h
    · exact ⟨_, h, by omega, fun _ => by simp [hsub, hnear]⟩
    · exact ⟨_, h, eq_zero_iff_of_sign (hthree _ _), fun _ => by simp [hthree, hnear]⟩

/-! ## The columns -/

/-- One column as `initKey` writes it. -/
def IsColumn (t : ColumnType) (d : List UInt8) : Prop :=
  if t.fixed then d.length = t.columnTypeSize
  else ∃ s : List UInt8, s.length < 2 ^ 16 ∧ d = LE.bytes 2 s.length ++ s

def IsColumns : List UniqueKeyTypePair → List UInt8 → Prop
  | [], d => d = []
  | c :: cs, d => ∃ x rest, d = x ++ rest ∧ IsColumn c.type x ∧ IsColumns cs rest

private theorem isColumn_initColumn (h : initColumn r old c = .ok x) : IsColumn c.type x := by
  unfold initColumn at h
  unfold IsColumn
  split at h
  · next hfixed =>
    rw [if_pos hfixed]
    exact Row.length_readFixed h
  · next hvar =>
    rw [if_neg hvar]
    cases h
    have hle := Nat.mod_le (r.readVar old c).length (2 ^ 16)
    refine ⟨(r.readVar old c).take ((r.readVar old c).length % 2 ^ 16), ?_, ?_⟩
    · rw [List.length_take]
      omega
    · rw [List.length_take, Nat.min_eq_left hle]

private theorem isColumns_initColumns {ds : List (List UInt8)}
    (h : columns.mapM (initColumn r old) = .ok ds) : IsColumns columns ds.flatten := by
  induction columns generalizing ds with
  | nil =>
    cases h
    rfl
  | cons c columns ih =>
    rw [List.mapM_cons] at h
    obtain ⟨d, hd, h⟩ := Exec.of_bind h
    obtain ⟨ds', hds, hret⟩ := Exec.of_bind h
    cases hret
    exact ⟨d, ds'.flatten, rfl, isColumn_initColumn hd, ih hds⟩

private theorem string_append {s : List UInt8} (hs : s.length < 2 ^ 16) (rest : List UInt8) :
    columnValue .T_STRING (LE.bytes 2 s.length ++ s ++ rest) = s.map (fun b => (b.toNat : Int)) ∧
      binaryAt (LE.bytes 2 s.length ++ s ++ rest) = .ok s ∧
      skipColumn .T_STRING (LE.bytes 2 s.length ++ s ++ rest) = rest := by
  have hsize : LE.nat ((LE.bytes 2 s.length ++ s ++ rest).take 2) = s.length := by
    rw [List.append_assoc, List.take_left' (LE.length_bytes 2 _), LE.nat_bytes_of_lt (by omega)]
  have hslice : (LE.bytes 2 s.length ++ s ++ rest).slice 2 s.length = s := by
    rw [List.append_assoc, List.slice_append_mid _ (LE.length_bytes 2 _) rfl]
  refine ⟨?_, ?_, ?_⟩
  · rw [columnValue, hsize, hslice]
  · rw [binaryAt, hsize, hslice]
    simp
  · rw [skipColumn, hsize]
    exact List.drop_left' (by simp)

/-- What the loop does with one column: it answers with the order of the values if they differ and
are near, and goes on behind the column if they are the same. -/
private theorem compareColumn_spec (ht : t.unionInteger = true ∨ t = .T_STRING)
    (hx : IsColumn t x) (hy : IsColumn t y) (a b : List UInt8) :
    skipColumn t (x ++ a) = a ∧ skipColumn t (y ++ b) = b ∧
      columnValue t (x ++ a) = columnValue t x ∧ columnValue t (y ++ b) = columnValue t y ∧
      (columnValue t x = columnValue t y → x = y) ∧
      ∃ n, compareColumn F t (x ++ a) (y ++ b) = .ok n ∧
        (n = 0 ↔ columnValue t x = columnValue t y) ∧
        (columnValue t x ≠ columnValue t y →
          (n.sign = order (columnValue t x) (columnValue t y) ↔
            t.Near (columnValue t x) (columnValue t y))) := by
  rcases ht with ht | rfl
  · have hfixed : t.fixed = true := by cases t <;> first | rfl | cases ht
    rw [IsColumn, if_pos hfixed] at hx hy
    have hcons : ∀ n m : Int, order [n] [m] = order n m := fun n m =>
      order_congr (by simp [List.cons_lt_cons_iff]) (by simp [List.cons_lt_cons_iff])
    obtain ⟨n, hn, hzero, hsign⟩ := compareColumn_integer (F := F) ht (x ++ a) (y ++ b)
    simp only [columnValue_integer ht, intValue_append hx, intValue_append hy] at hzero hsign ⊢
    refine ⟨?_, ?_, trivial, trivial, fun h => intValue_inj hx hy (by simpa using h), n, hn, ?_, ?_⟩
    · rw [skipColumn, if_pos hfixed, List.drop_left' hx]
    · rw [skipColumn, if_pos hfixed, List.drop_left' hy]
    · simp [hzero]
    · intro hne
      rw [hcons]
      exact hsign (by simpa using hne)
  · obtain ⟨s, hs, rfl⟩ := hx
    obtain ⟨s', hs', rfl⟩ := hy
    obtain ⟨hvalue, hbinary, hskip⟩ := string_append hs a
    obtain ⟨hvalue', hbinary', hskip'⟩ := string_append hs' b
    have hnil := (string_append hs []).1
    have hnil' := (string_append hs' []).1
    rw [List.append_nil] at hnil hnil'
    have hspec := binaryCompare_spec s s'
    have hsign := sign_eq_order hspec.1 hspec.2
    refine ⟨hskip, hskip', hvalue.trans hnil.symm, hvalue'.trans hnil'.symm, ?_, ?_⟩
    · intro h
      rw [hnil, hnil'] at h
      have hinj : Function.Injective fun x : UInt8 => (x.toNat : Int) :=
        fun x y hxy => UInt8.toNat_inj.mp (Int.ofNat_inj.mp hxy)
      rw [List.map_injective_iff.mpr hinj h]
    · refine ⟨binaryCompare s s', ?_, ?_, ?_⟩
      · rw [compareColumn, hbinary, hbinary']
        rfl
      · rw [hnil, hnil', eq_zero_iff_of_sign hsign]
      · intro _
        rw [hnil, hnil', hsign]
        simp [ColumnType.Near]

/-- The values tell the keys apart, and `compare` answers 0 for equal values, and with the order of
the values exactly if they are near. -/
theorem compareColumns_spec (htyped : Typed columns) (ha : IsColumns columns a)
    (hb : IsColumns columns b) :
    (columnValues columns a = columnValues columns b → a = b) ∧
      ∃ n, compareColumns F columns a b = .ok n ∧
        (n = 0 ↔ columnValues columns a = columnValues columns b) ∧
        (n.sign = order (columnValues columns a) (columnValues columns b) ↔
          Near columns (columnValues columns a) (columnValues columns b)) := by
  induction columns generalizing a b with
  | nil =>
    cases ha
    cases hb
    exact ⟨fun _ => rfl, 0, rfl, by simp [columnValues], by simp [columnValues, Near]⟩
  | cons c columns ih =>
    obtain ⟨x, a, rfl, hx, ha⟩ := ha
    obtain ⟨y, b, rfl, hy, hb⟩ := hb
    obtain ⟨hskip, hskip', hvalue, hvalue', hinj, n, hn, hzero, hsign⟩ :=
      compareColumn_spec (F := F) (htyped c List.mem_cons_self) hx hy a b
    obtain ⟨hrest, m, hm, hmzero, hmsign⟩ :=
      ih (fun c hc => htyped c (List.mem_cons_of_mem _ hc)) ha hb
    simp only [columnValues, hskip, hskip', hvalue, hvalue', List.cons.injEq]
    refine ⟨fun h => by rw [hinj h.1, hrest h.2], ?_⟩
    rw [compareColumns, hn, Exec.ok_bind, hskip, hskip', hm]
    by_cases heq : columnValue c.type x = columnValue c.type y
    · -- the columns are equal, and the rest decides
      have hcons : order (columnValue c.type y :: columnValues columns a)
          (columnValue c.type y :: columnValues columns b) =
            order (columnValues columns a) (columnValues columns b) :=
        order_congr (by simp) (by simp)
      refine ⟨m, by simp [hzero.mpr heq], by simp [heq, hmzero], ?_⟩
      rw [Near, if_pos heq, heq, hcons]
      exact hmsign
    · have hne : n ≠ 0 := mt hzero.mp heq
      have hcons : order (columnValue c.type x :: columnValues columns a)
          (columnValue c.type y :: columnValues columns b) =
            order (columnValue c.type x) (columnValue c.type y) :=
        order_congr (by simp [List.cons_lt_cons_iff, heq])
          (by simp [List.cons_lt_cons_iff, Ne.symm heq])
      refine ⟨n, by simp [hne], by simp [heq, hne], ?_⟩
      rw [Near, if_neg heq, hcons]
      exact hsign heq

/-! ## The keys -/

/-- A key that `initKey` has put together, in as many bytes as are reserved for it. -/
def Built (ukMeta : UnionKeyMeta) (key : Key) : Prop :=
  ∃ r old, initKey ukMeta r old (memSize ukMeta r old) (memSize ukMeta r old + startOffset ukMeta) =
    .ok key

/-- The size a key carries: that of the metadata, or its length in front. -/
def storedSize (ukMeta : UnionKeyMeta) (key : Key) : Nat :=
  if ukMeta.fixed then ukMeta.size else LE.nat (key.take 2)

/-- The size a key carries is that of its columns. -/
def Full (ukMeta : UnionKeyMeta) (key : Key) : Prop :=
  key.length = startOffset ukMeta + storedSize ukMeta key

/-- The typed lexicographic order of the keys of `K`, and what `operator==` and `hash` have to do
with it. -/
structure TypedOrder (F : FloatOps) (ukMeta : UnionKeyMeta) (K : Key → Prop) : Prop where
  compare : ∀ a b, K a → K b → ∃ n, compare F ukMeta a b = .ok n ∧
    n.sign = order (keyValue .T_UNION ukMeta a) (keyValue .T_UNION ukMeta b)
  antisymm : ∀ a b n m, K a → K b → UnionKey.compare F ukMeta a b = .ok n →
    UnionKey.compare F ukMeta b a = .ok m → m.sign = -n.sign
  trans : ∀ a b c n m l, K a → K b → K c → UnionKey.compare F ukMeta a b = .ok n →
    UnionKey.compare F ukMeta b c = .ok m → UnionKey.compare F ukMeta a c = .ok l →
    n ≤ 0 → m ≤ 0 → l ≤ 0
  equal : ∀ a b, K a → K b → (UnionKey.compare F ukMeta a b = .ok 0 ↔ equal ukMeta a b = .ok true)
  hash : ∀ a b, K a → K b → UnionKey.compare F ukMeta a b = .ok 0 →
    ∃ h, hash ukMeta a = .ok h ∧ hash ukMeta b = .ok h

theorem memSize_lt (h : ukMeta.fixed = false) : memSize ukMeta r old < 2 ^ 16 := by
  rw [memSize, h]
  exact Nat.mod_lt _ (by omega)

theorem Built.eq_append (h : Built ukMeta key) :
    key.length ≤ startOffset ukMeta + storedSize ukMeta key ∧
      IsColumns ukMeta.columnInfo (key.drop (startOffset ukMeta)) ∧
      (ukMeta.fixed = false → key = LE.bytes 2 (storedSize ukMeta key) ++ key.drop 2 ∧
        storedSize ukMeta key < 2 ^ 16) := by
  obtain ⟨r, old, h⟩ := h
  obtain ⟨ds, hds, hret⟩ := Exec.of_bind h
  have hcolumns := isColumns_initColumns hds
  cases hfixed : ukMeta.fixed with
  | true =>
    simp only [hfixed, if_true, List.nil_append, startOffset, storedSize, memSize] at hret ⊢
    split at hret
    · next hle =>
      cases hret
      exact ⟨by omega, hcolumns, by simp⟩
    · cases hret
  | false =>
    have hlt : memSize ukMeta r old < 2 ^ 16 := memSize_lt hfixed
    have hsize : LE.nat ((LE.bytes 2 (memSize ukMeta r old) ++ ds.flatten).take 2) =
        memSize ukMeta r old := by
      rw [List.take_left' (LE.length_bytes 2 _), LE.nat_bytes_of_lt (by omega)]
    simp only [hfixed, Bool.false_eq_true, if_false, startOffset, storedSize] at hret ⊢
    split at hret
    · next hle =>
      cases hret
      rw [hsize, List.drop_left' (LE.length_bytes 2 _)]
      exact ⟨by omega, hcolumns, fun _ => ⟨rfl, hlt⟩⟩
    · cases hret

theorem bytesAt_of_length {p : List UInt8} {n : Nat} (h : p.length = n) :
    SolidIndex.bytesAt p n = .ok p := by
  rw [SolidIndex.bytesAt, if_pos (by omega), List.take_of_length_le (by omega)]

theorem sizeAt_eq (hfixed : ukMeta.fixed = false) (h : 2 ≤ key.length) :
    sizeAt key = .ok (storedSize ukMeta key) := by
  rw [sizeAt, SolidIndex.bytesAt, if_pos h, storedSize, hfixed]
  rfl

theorem equal_eq (ha : Built ukMeta a) (hb : Built ukMeta b) (hfa : Full ukMeta a)
    (hfb : Full ukMeta b) : equal ukMeta a b = .ok (decide (a = b)) := by
  unfold equal
  cases hfixed : ukMeta.fixed with
  | true =>
    simp only [Full, startOffset, storedSize, hfixed, if_true, Nat.zero_add] at hfa hfb
    simp only [if_true, bytesAt_of_length hfa, bytesAt_of_length hfb, Exec.ok_bind,
      beq_eq_decide]
    rfl
  | false =>
    obtain ⟨ha', hlt⟩ := ha.eq_append.2.2 hfixed
    obtain ⟨hb', hlt'⟩ := hb.eq_append.2.2 hfixed
    simp only [Full, startOffset, hfixed, Bool.false_eq_true, if_false] at hfa hfb
    simp only [Bool.false_eq_true, if_false, sizeAt_eq hfixed (show 2 ≤ a.length by omega),
      sizeAt_eq hfixed (show 2 ≤ b.length by omega), Exec.ok_bind]
    by_cases hsize : storedSize ukMeta a = storedSize ukMeta b
    · rw [if_neg (by simp [hsize]), bytesAt_of_length (by simp; omega),
        bytesAt_of_length (by simp; omega)]
      have heq : a = b ↔ a.drop 2 = b.drop 2 := by
        refine ⟨fun h => by rw [h], fun h => ?_⟩
        rw [ha', hb', hsize, h]
      simp only [Exec.ok_bind, beq_eq_decide, heq]
      rfl
    · rw [if_pos hsize]
      have hne : a ≠ b := fun h => hsize (by rw [h])
      simp [hne]

theorem full_of_equal (ha : Built ukMeta a) (h : equal ukMeta a a = .ok true) : Full ukMeta a := by
  have hle := ha.eq_append.1
  unfold equal at h
  unfold Full
  cases hfixed : ukMeta.fixed with
  | true =>
    simp only [startOffset, storedSize, hfixed, if_true] at hle h ⊢
    obtain ⟨p, hp, -⟩ := Exec.of_bind h
    unfold SolidIndex.bytesAt at hp
    split at hp
    · omega
    · cases hp
  | false =>
    obtain ⟨ha', -⟩ := ha.eq_append.2.2 hfixed
    have hlen : 2 ≤ a.length := by
      rw [ha', List.length_append, LE.length_bytes]
      omega
    simp only [startOffset, hfixed, Bool.false_eq_true, if_false] at hle h ⊢
    simp only [sizeAt_eq hfixed hlen, Exec.ok_bind, ne_eq, not_true_eq_false, if_false] at h
    obtain ⟨p, hp, -⟩ := Exec.of_bind h
    unfold SolidIndex.bytesAt at hp
    split at hp
    · next hroom =>
      rw [List.length_drop] at hroom
      omega
    · cases hp

theorem exists_hash (h : Full ukMeta a) : ∃ n, hash ukMeta a = .ok n := by
  unfold hash hashBytes
  unfold Full at h
  cases hfixed : ukMeta.fixed with
  | true =>
    simp only [startOffset, storedSize, hfixed, if_true, Nat.zero_add] at h
    exact ⟨hashBinary a, by simp [bytesAt_of_length h]⟩
  | false =>
    simp only [startOffset, hfixed, Bool.false_eq_true, if_false] at h
    refine ⟨hashBinary (a.take (storedSize ukMeta a)), ?_⟩
    have hroom : storedSize ukMeta a ≤ a.length := by omega
    simp [sizeAt_eq hfixed (show 2 ≤ a.length by omega), SolidIndex.bytesAt, hroom]

/-! ## The order -/

variable {K : Key → Prop}

theorem compare_spec (htyped : Typed ukMeta.columnInfo) (ha : Built ukMeta a)
    (hb : Built ukMeta b) : ∃ n, compare F ukMeta a b = .ok n ∧
      (n = 0 ↔ keyValue .T_UNION ukMeta a = keyValue .T_UNION ukMeta b) ∧
      (n.sign = order (keyValue .T_UNION ukMeta a) (keyValue .T_UNION ukMeta b) ↔
        Near ukMeta.columnInfo (keyValue .T_UNION ukMeta a) (keyValue .T_UNION ukMeta b)) :=
  (compareColumns_spec htyped ha.eq_append.2.1 hb.eq_append.2.1).2

theorem eq_of_keyValue (htyped : Typed ukMeta.columnInfo) (ha : Built ukMeta a)
    (hb : Built ukMeta b) (hfa : Full ukMeta a) (hfb : Full ukMeta b)
    (h : keyValue .T_UNION ukMeta a = keyValue .T_UNION ukMeta b) : a = b := by
  have hdrop : a.drop (startOffset ukMeta) = b.drop (startOffset ukMeta) :=
    (compareColumns_spec (F := noFloats) htyped ha.eq_append.2.1 hb.eq_append.2.1).1 h
  cases hfixed : ukMeta.fixed with
  | true => simpa [startOffset, hfixed] using hdrop
  | false =>
    have hlen := congrArg List.length hdrop
    simp only [startOffset, hfixed, Bool.false_eq_true, if_false, List.length_drop] at hdrop hlen
    unfold Full at hfa hfb
    simp only [startOffset, hfixed, Bool.false_eq_true, if_false] at hfa hfb
    rw [(ha.eq_append.2.2 hfixed).1, (hb.eq_append.2.2 hfixed).1, hdrop,
      show storedSize ukMeta a = storedSize ukMeta b by omega]

/-- `compare` is the typed lexicographic order of the keys, with `operator==` and `hash` in accord,
exactly if the keys carry the size of their columns and no two of them are too far apart in the
first column in which they differ. -/
theorem typedOrder_iff_near (htyped : Typed ukMeta.columnInfo)
    (hK : ∀ key, K key → Built ukMeta key) :
    TypedOrder F ukMeta K ↔ ∀ a b, K a → K b → Full ukMeta a ∧
      Near ukMeta.columnInfo (keyValue .T_UNION ukMeta a) (keyValue .T_UNION ukMeta b) := by
  constructor
  · intro h a b ha hb
    constructor
    · -- a key is equal to itself
      obtain ⟨n, hn, hzero, -⟩ := compare_spec (F := F) htyped (hK a ha) (hK a ha)
      rw [hzero.mpr rfl] at hn
      exact full_of_equal (hK a ha) ((h.equal a a ha ha).mp hn)
    · obtain ⟨n, hn, -, hnear⟩ := compare_spec (F := F) htyped (hK a ha) (hK b hb)
      obtain ⟨m, hm, hsign⟩ := h.compare a b ha hb
      rw [hn] at hm
      cases hm
      exact hnear.mp hsign
  · intro h
    have hspec : ∀ a b n, K a → K b → compare F ukMeta a b = .ok n →
        n.sign = order (keyValue .T_UNION ukMeta a) (keyValue .T_UNION ukMeta b) := by
      intro a b n ha hb hn
      obtain ⟨m, hm, -, hnear⟩ := compare_spec (F := F) htyped (hK a ha) (hK b hb)
      rw [hn] at hm
      cases hm
      exact hnear.mpr (h a b ha hb).2
    have hequal : ∀ a b, K a → K b → (compare F ukMeta a b = .ok 0 ↔ a = b) := by
      intro a b ha hb
      obtain ⟨n, hn, hzero, -⟩ := compare_spec (F := F) htyped (hK a ha) (hK b hb)
      rw [hn, Except.ok.injEq, hzero]
      refine ⟨eq_of_keyValue htyped (hK a ha) (hK b hb) (h a a ha ha).1 (h b b hb hb).1, ?_⟩
      intro heq
      rw [heq]
    constructor
    · intro a b ha hb
      obtain ⟨n, hn, -, -⟩ := compare_spec (F := F) htyped (hK a ha) (hK b hb)
      exact ⟨n, hn, hspec a b n ha hb hn⟩
    · intro a b n m ha hb hn hm
      rw [hspec a b n ha hb hn, hspec b a m hb ha hm, order_swap]
    · intro a b c n m l ha hb hc hn hm hl hn0 hm0
      have hab := mt (pos_iff_of_sign (hspec a b n ha hb hn)).mpr (by omega)
      have hbc := mt (pos_iff_of_sign (hspec b c m hb hc hm)).mpr (by omega)
      have hac := mt (pos_iff_of_sign (hspec a c l ha hc hl)).mp
        (not_lt.mpr (le_trans (not_lt.mp hab) (not_lt.mp hbc)))
      omega
    · intro a b ha hb
      rw [hequal a b ha hb,
        equal_eq (hK a ha) (hK b hb) (h a a ha ha).1 (h b b hb hb).1]
      simp
    · intro a b ha hb hab
      obtain ⟨n, hn⟩ := exists_hash (h a a ha ha).1
      exact ⟨n, hn, (hequal a b ha hb).mp hab ▸ hn⟩

def numberAndString : UnionKeyMeta := UnionKeyMeta.createUnionKey [⟨.T_UINT32, 0⟩, ⟨.T_STRING, 1⟩]

/-- The keys of the rows `(1, "a")` and `(2, "")`. -/
def TwoRows (key : Key) : Prop :=
  key = [7, 0, 1, 0, 0, 0, 1, 0, 97] ∨ key = [6, 0, 2, 0, 0, 0, 0, 0]

theorem typedOrder_twoRows : TypedOrder noFloats numberAndString TwoRows ↔
    ∀ a b, TwoRows a → TwoRows b → Full numberAndString a ∧
      Near numberAndString.columnInfo (keyValue .T_UNION numberAndString a)
        (keyValue .T_UNION numberAndString b) := by
  have htyped : Typed numberAndString.columnInfo := by
    intro c hc
    rcases List.mem_cons.mp hc with rfl | hc
    · exact .inl rfl
    · rw [List.mem_singleton.mp hc]
      exact .inr rfl
  apply typedOrder_iff_near htyped
  rintro key (rfl | rfl)
  · exact ⟨rowOf fun i => if i = 0 then [1, 0, 0, 0] else [97], false, by decide⟩
  · exact ⟨rowOf fun i => if i = 0 then [2, 0, 0, 0] else [], false, by decide⟩

def twoNumbers : UnionKeyMeta := UnionKeyMeta.createUnionKey [⟨.T_UINT32, 0⟩, ⟨.T_UINT8, 1⟩]

/-- `(2147483649, 0)` compares as smaller than `(0, 0)`. -/
theorem not_typedOrder_far : ¬ TypedOrder noFloats twoNumbers (Built twoNumbers) := by
  intro h
  have ha : Built twoNumbers [1, 0, 0, 128, 0] :=
    ⟨rowOf fun i => if i = 0 then [1, 0, 0, 128] else [0], false, by decide⟩
  have hb : Built twoNumbers [0, 0, 0, 0, 0] :=
    ⟨rowOf fun i => if i = 0 then [0, 0, 0, 0] else [0], false, by decide⟩
  obtain ⟨n, hn, hsign⟩ := h.compare _ _ ha hb
  have hcompare : compare noFloats twoNumbers [1, 0, 0, 128, 0] [0, 0, 0, 0, 0] =
      .ok (-2147483647) := by decide
  rw [hcompare] at hn
  cases hn
  -- the values are the other way round
  have hvalue : keyValue .T_UNION twoNumbers [1, 0, 0, 128, 0] = [[2147483649], [0]] := by decide
  have hvalue' : keyValue .T_UNION twoNumbers [0, 0, 0, 0, 0] = [[0], [0]] := by decide
  have hlt := (neg_iff_of_sign hsign).mp (by omega)
  rw [hvalue, hvalue'] at hlt
  simp [List.cons_lt_cons_iff] at hlt

end UnionKey

end DBStream.Native
