import DBStream.Native.DMLRecord
import Mathlib.Data.List.Induction

/-!
# Images of rows

Where `buildColumnOffsetList` puts the columns of a table, and the three regions of an image: the
fixed columns one behind the other, the starts of the other columns, and their contents.  The columns
are written in their order, so that each region grows at its end (`RowImage.add`).  The new and the
old image of an update are both such images, at different places.
-/

namespace DBStream.Native

open Meta

/-! ## Places of columns -/

/-- The bytes of the fixed columns. -/
def fixedSize (ts : List Meta.ColumnType) : Nat :=
  (ts.map fun t => if t.info.fixed then t.info.columnTypeSize else 0).sum

def fixedCount (ts : List Meta.ColumnType) : Nat := ts.countP fun t => t.info.fixed

def varCount (ts : List Meta.ColumnType) : Nat := ts.countP fun t => !t.info.fixed

/-- The types of the columns of a table. -/
def Meta.TableMeta.types (t : Meta.TableMeta) : List Meta.ColumnType :=
  t.m_columns.map ColumnMeta.m_columnType

variable {ts us : List Meta.ColumnType} {t : Meta.ColumnType} {i : Nat}

theorem fixedSize_append (ts us : List Meta.ColumnType) :
    fixedSize (ts ++ us) = fixedSize ts + fixedSize us := by
  simp [fixedSize]

theorem varCount_append (ts us : List Meta.ColumnType) :
    varCount (ts ++ us) = varCount ts + varCount us := List.countP_append

theorem fixedSize_cons (h : t.info.fixed = true) :
    fixedSize (t :: ts) = t.info.columnTypeSize + fixedSize ts := by
  simp [fixedSize, h]

theorem varCount_cons (h : t.info.fixed = false) : varCount (t :: ts) = varCount ts + 1 := by
  simp [varCount, h]

theorem concat_split {α : Type} {l l₁ l₂ : List α} {a b : α} (h : l ++ [a] = l₁ ++ b :: l₂) :
    l₁ = l ∧ b = a ∨ ∃ l₂', l = l₁ ++ b :: l₂' := by
  obtain rfl | ⟨l₂', c, rfl⟩ := List.eq_nil_or_concat l₂
  · obtain ⟨rfl, hb⟩ := List.append_inj' h rfl
    exact .inl ⟨rfl, (List.cons.inj hb).1.symm⟩
  · have hassoc : l ++ [a] = (l₁ ++ b :: l₂') ++ [c] := by simpa using h
    exact .inr ⟨l₂', (List.append_inj' hassoc rfl).1⟩

/-- What the loop of `buildColumnOffsetList` has found for the first columns. -/
structure OffsetListFor (ts : List Meta.ColumnType) (l : OffsetList) : Prop where
  fixedCount : l.m_fixedColumnCount = fixedCount ts
  varCount : l.m_varColumnCount = varCount ts
  fixedOffset : l.fixedOffset = fixedSize ts
  length_real : l.m_realIndexInRowFormat.length = ts.length
  length_offsets : l.m_fixedColumnOffsetsInRecord.length = l.m_fixedColumnCount
  fixed : ∀ {ts₁ t ts₂}, ts = ts₁ ++ t :: ts₂ → t.info.fixed = true →
    l.m_realIndexInRowFormat[ts₁.length]? = some (Native.fixedCount ts₁) ∧
      l.m_fixedColumnOffsetsInRecord[Native.fixedCount ts₁]? = some (fixedSize ts₁ % 2 ^ 16)
  var : ∀ {ts₁ t ts₂}, ts = ts₁ ++ t :: ts₂ → t.info.fixed = false →
    l.m_realIndexInRowFormat[ts₁.length]? = some (Native.varCount ts₁)

theorem getElem?_concat {α : Type} {l : List α} {n : Nat} {a b : α} (h : l[n]? = some b) :
    (l ++ [a])[n]? = some b := by
  rw [List.getElem?_append_left (List.getElem?_eq_some_iff.mp h).1, h]

/-- The list of the offsets with one more column. -/
theorem OffsetListFor.add {l : OffsetList} (h : OffsetListFor ts l) (t : Meta.ColumnType) :
    OffsetListFor (ts ++ [t]) (l.add t) := by
  cases hfixed : t.info.fixed with
  | true =>
    have hadd : l.add t = { l with
        m_realIndexInRowFormat := l.m_realIndexInRowFormat ++ [l.m_fixedColumnCount]
        m_fixedColumnOffsetsInRecord := l.m_fixedColumnOffsetsInRecord ++ [l.fixedOffset % 2 ^ 16]
        m_fixedColumnCount := l.m_fixedColumnCount + 1
        fixedOffset := l.fixedOffset + t.info.columnTypeSize } := if_pos hfixed
    rw [hadd]
    constructor
    · simp [h.fixedCount, Native.fixedCount, hfixed]
    · simp [h.varCount, Native.varCount, hfixed]
    · simp [h.fixedOffset, fixedSize, hfixed]
    · simp [h.length_real]
    · simp [h.length_offsets]
    · intro ts₁ u ts₂ hsplit hu
      obtain ⟨rfl, rfl⟩ | ⟨ts₂', hts⟩ := concat_split hsplit
      · simp [← h.length_real, ← h.fixedCount, ← h.length_offsets, h.fixedOffset]
      · exact ⟨getElem?_concat (h.fixed hts hu).1, getElem?_concat (h.fixed hts hu).2⟩
    · intro ts₁ u ts₂ hsplit hu
      obtain ⟨rfl, rfl⟩ | ⟨ts₂', hts⟩ := concat_split hsplit
      · rw [hfixed] at hu
        cases hu
      · exact getElem?_concat (h.var hts hu)
  | false =>
    have hadd : l.add t = { l with
        m_realIndexInRowFormat := l.m_realIndexInRowFormat ++ [l.m_varColumnCount]
        m_varColumnCount := l.m_varColumnCount + 1 } := if_neg (by simp [hfixed])
    rw [hadd]
    constructor
    · simp [h.fixedCount, Native.fixedCount, hfixed]
    · simp [h.varCount, Native.varCount, hfixed]
    · simp [h.fixedOffset, fixedSize, hfixed]
    · simp [h.length_real]
    · exact h.length_offsets
    · intro ts₁ u ts₂ hsplit hu
      obtain ⟨rfl, rfl⟩ | ⟨ts₂', hts⟩ := concat_split hsplit
      · rw [hfixed] at hu
        cases hu
      · exact ⟨getElem?_concat (h.fixed hts hu).1, (h.fixed hts hu).2⟩
    · intro ts₁ u ts₂ hsplit hu
      obtain ⟨rfl, rfl⟩ | ⟨ts₂', hts⟩ := concat_split hsplit
      · simp [← h.length_real, ← h.varCount]
      · exact getElem?_concat (h.var hts hu)

theorem offsetListFor_foldl (ts : List Meta.ColumnType) :
    OffsetListFor ts (ts.foldl OffsetList.add {}) := by
  induction ts using List.reverseRecOn with
  | nil =>
    constructor <;> try rfl
    · intro ts₁ t ts₂ hsplit
      simp at hsplit
    · intro ts₁ t ts₂ hsplit
      simp at hsplit
  | append_singleton ts t ih =>
    rw [List.foldl_concat]
    exact ih.add t

/-- The places that a table has for its columns. -/
structure Built (m : Meta.TableMeta) : Prop where
  varCount : m.m_varColumnCount = varCount m.types
  total : tableAt m.m_fixedColumnOffsetsInRecord m.m_fixedColumnCount =
    .ok (fixedSize m.types % 2 ^ 16)
  fixed : ∀ {ts₁ t ts₂}, m.types = ts₁ ++ t :: ts₂ → t.info.fixed = true →
    tableAt m.m_realIndexInRowFormat ts₁.length = .ok (fixedCount ts₁) ∧
      tableAt m.m_fixedColumnOffsetsInRecord (fixedCount ts₁) = .ok (fixedSize ts₁ % 2 ^ 16)
  var : ∀ {ts₁ t ts₂}, m.types = ts₁ ++ t :: ts₂ → t.info.fixed = false →
    tableAt m.m_realIndexInRowFormat ts₁.length = .ok (Native.varCount ts₁)

theorem tableAt_of_getElem? {α : Type} {l : List α} {n : Nat} {a : α} (h : l[n]? = some a) :
    tableAt l n = .ok a := by
  rw [tableAt, h]

theorem getElem?_of_tableAt {α : Type} {l : List α} {n : Nat} {a : α} (h : tableAt l n = .ok a) :
    l[n]? = some a := by
  unfold tableAt at h
  split at h
  · cases h
  case h_2 b hb =>
    cases h
    exact hb

theorem built_buildColumnOffsetList (m : Meta.TableMeta) : Built m.buildColumnOffsetList := by
  have h : OffsetListFor m.types (m.types.foldl OffsetList.add {}) := offsetListFor_foldl m.types
  constructor
  · exact h.varCount
  · apply tableAt_of_getElem?
    show ((m.types.foldl OffsetList.add {}).m_fixedColumnOffsetsInRecord ++
      [(m.types.foldl OffsetList.add {}).fixedOffset % 2 ^ 16])[
        (m.types.foldl OffsetList.add {}).m_fixedColumnCount]? = some (fixedSize m.types % 2 ^ 16)
    rw [h.fixedOffset, ← h.length_offsets, List.getElem?_concat_length]
  · intro ts₁ t ts₂ hsplit hfixed
    obtain ⟨hreal, hoffset⟩ := h.fixed hsplit hfixed
    exact ⟨tableAt_of_getElem? hreal, tableAt_of_getElem? (getElem?_concat hoffset)⟩
  · intro ts₁ t ts₂ hsplit hvar
    exact tableAt_of_getElem? (h.var hsplit hvar)

/-! ## Images -/

/-- The three regions, as far as they are written. -/
structure RowImage where
  fixed : List UInt8 := []
  starts : List Nat := []
  data : List UInt8 := []

namespace RowImage

open DMLRecord

/-- The image with one more column. -/
def add (im : RowImage) (t : Meta.ColumnType) (bytes : List UInt8) (start : Nat) : RowImage :=
  if t.info.fixed then { im with fixed := im.fixed ++ bytes }
  else { im with starts := im.starts ++ [start], data := im.data ++ bytes }

/-- An image is in memory from `b` on, in a table with `T` bytes of fixed columns and `V` others. -/
structure At (im : RowImage) (mem : RawMemory) (b T V : Nat) : Prop where
  fixed : mem.read b im.fixed.length = im.fixed
  starts : ∀ {r s}, im.starts[r]? = some s → offsetAt mem (b + T) r = s
  last : offsetAt mem (b + T) V = T + 4 * (V + 1) + im.data.length
  data : mem.read (b + T + 4 * (V + 1)) im.data.length = im.data

variable {im : RowImage} {mem mem' : RawMemory} {b T V : Nat} {v : List UInt8}

theorem At.congr (h : im.At mem b T V) (hfixed : im.fixed.length ≤ T) (hstarts : im.starts.length ≤ V)
    (hsame : ∀ a, b ≤ a → a < b + T + 4 * (V + 1) + im.data.length → mem' a = mem a) :
    im.At mem' b T V := by
  have hoffset (r : Nat) (hr : r ≤ V) : offsetAt mem' (b + T) r = offsetAt mem (b + T) r := by
    rw [offsetAt, offsetAt, RawMemory.readWord, RawMemory.readWord]
    congr 1
    apply RawMemory.read_congr
    intro a ha hlt
    exact hsame a (by omega) (by omega)
  constructor
  · rw [← h.fixed, RawMemory.length_read]
    apply RawMemory.read_congr
    intro a ha hlt
    exact hsame a ha (by omega)
  · intro r s hs
    have hr := (List.getElem?_eq_some_iff.mp hs).1
    rw [hoffset r (by omega), h.starts hs]
  · rw [hoffset V (Nat.le_refl V), h.last]
  · conv_rhs => rw [← h.data]
    apply RawMemory.read_congr
    intro a ha hlt
    exact hsame a (by omega) (by omega)

theorem At.congr_of_ge (h : im.At mem b T V) (hsame : ∀ a, b ≤ a → mem' a = mem a) :
    im.At mem' b T V := by
  have hread (p n : Nat) (hp : b ≤ p) : mem'.read p n = mem.read p n :=
    RawMemory.read_congr fun a ha _ => hsame a (by omega)
  have hoffset (r : Nat) : offsetAt mem' (b + T) r = offsetAt mem (b + T) r := by
    rw [offsetAt, RawMemory.readWord, hread _ _ (by omega)]
    rfl
  constructor
  · rw [hread _ _ (Nat.le_refl b), h.fixed]
  · intro r s hs
    rw [hoffset, h.starts hs]
  · rw [hoffset, h.last]
  · rw [hread _ _ (by omega), h.data]

theorem offsetAt_setOffset_self {p r n : Nat} (h : n < 2 ^ 32) :
    offsetAt (setOffset mem p r n) p r = n := RawMemory.readWord_writeWord_self h

theorem offsetAt_setOffset_of_ne {p r q n : Nat} (h : r ≠ q) :
    offsetAt (setOffset mem p q n) p r = offsetAt mem p r :=
  RawMemory.readWord_writeWord_of_disjoint (by omega)

theorem At.setFixed (h : im.At mem b T V) (hroom : im.fixed.length + v.length ≤ T) :
    ({ im with fixed := im.fixed ++ v } : RowImage).At (mem.write (b + im.fixed.length) v) b T V := by
  constructor
  · rw [List.length_append, RawMemory.read_add, RawMemory.read_write_self,
      RawMemory.read_write_of_disjoint (Or.inl (Nat.le_refl _)), h.fixed]
  · intro r s hs
    rw [← h.starts hs]
    exact RawMemory.readWord_write_of_disjoint (by omega)
  · rw [← h.last]
    exact RawMemory.readWord_write_of_disjoint (by omega)
  · conv_rhs => rw [← h.data]
    exact RawMemory.read_write_of_disjoint (by omega)

theorem At.last_write (h : im.At mem b T V) {n : Nat} (hn : T + 4 * (V + 1) ≤ n) :
    offsetAt (mem.write (b + n) v) (b + T) V = T + 4 * (V + 1) + im.data.length := by
  rw [← h.last]
  exact RawMemory.readWord_write_of_disjoint (by omega)

theorem At.setStart (h : im.At mem b T V) {start : Nat} (hfixed : im.fixed.length ≤ T)
    (hroom : im.starts.length < V) (hstart : start < 2 ^ 32) :
    ({ im with starts := im.starts ++ [start] } : RowImage).At
      (setOffset mem (b + T) im.starts.length start) b T V := by
  constructor
  · conv_rhs => rw [← h.fixed]
    refine RawMemory.read_write_of_disjoint (Or.inl ?_)
    show b + im.fixed.length ≤ _
    omega
  · intro r s hs
    by_cases hr : r = im.starts.length
    · subst hr
      rw [List.getElem?_concat_length] at hs
      cases hs
      exact offsetAt_setOffset_self hstart
    · have hlt := (List.getElem?_eq_some_iff.mp hs).1
      rw [List.length_append, List.length_singleton] at hlt
      rw [List.getElem?_append_left (by omega)] at hs
      rw [offsetAt_setOffset_of_ne hr, h.starts hs]
  · rw [offsetAt_setOffset_of_ne (by omega), h.last]
  · conv_rhs => rw [← h.data]
    refine RawMemory.read_write_of_disjoint (Or.inr ?_)
    rw [LE.length_bytes]
    omega

theorem At.setVar (h : im.At mem b T V) (hfixed : im.fixed.length ≤ T)
    (hroom : im.starts.length < V) (hfits : T + 4 * (V + 1) + im.data.length + v.length < 2 ^ 32) :
    let start := T + 4 * (V + 1) + im.data.length
    ({ im with starts := im.starts ++ [start], data := im.data ++ v } : RowImage).At
      (setOffset (setOffset (mem.write (b + start) v) (b + T) im.starts.length start) (b + T) V
        (start + v.length)) b T V := by
  intro start
  -- the contents are behind all that was written before
  have hdata : ({ im with data := im.data } : RowImage).At (mem.write (b + start) v) b T V :=
    h.congr hfixed (by omega) fun a _ hlt => RawMemory.write_of_lt (by omega)
  have hstart := hdata.setStart hfixed hroom (show start < 2 ^ 32 by omega)
  constructor
  · conv_rhs => rw [← hstart.fixed]
    refine RawMemory.read_write_of_disjoint (Or.inl ?_)
    show b + im.fixed.length ≤ _
    omega
  · intro r s hs
    have hlt := (List.getElem?_eq_some_iff.mp hs).1
    rw [List.length_append, List.length_singleton] at hlt
    rw [offsetAt_setOffset_of_ne (by omega)]
    exact hstart.starts hs
  · rw [offsetAt_setOffset_self (by omega), List.length_append]
    omega
  · have hbehind (p n : Nat) (hp : b + T + 4 * (V + 1) ≤ p) :
        (setOffset (setOffset (mem.write (b + start) v) (b + T) im.starts.length start) (b + T) V
          (start + v.length)).read p n = (mem.write (b + start) v).read p n := by
      rw [setOffset, RawMemory.writeWord, RawMemory.read_write_of_disjoint, setOffset,
        RawMemory.writeWord, RawMemory.read_write_of_disjoint]
      · rw [LE.length_bytes]
        omega
      · rw [LE.length_bytes]
        omega
    rw [List.length_append, RawMemory.read_add, hbehind _ _ (Nat.le_refl _), hbehind _ _ (by omega)]
    have hold : (mem.write (b + start) v).read (b + T + 4 * (V + 1)) im.data.length = im.data :=
      hdata.data
    have hplace : b + T + 4 * (V + 1) + im.data.length = b + start := by omega
    rw [hold, hplace, RawMemory.read_write_self]

/-! ## Images of cells -/

/-- What is written of a column.  The start of a column that is not fixed is the end of those before
    it, unless another one is given. -/
structure Cell where
  type : Meta.ColumnType
  bytes : List UInt8
  start : Option Nat := none

/-- The value of a fixed column has the size of its type. -/
def Cell.Fits (c : Cell) : Prop := c.type.info.fixed = true → c.bytes.length = c.type.info.columnTypeSize

def push (T V : Nat) (im : RowImage) (c : Cell) : RowImage :=
  im.add c.type c.bytes (c.start.getD (T + 4 * (V + 1) + im.data.length))

def ofCells (T V : Nat) (cs : List Cell) : RowImage := cs.foldl (push T V) {}

/-- The bytes of the columns that are not fixed. -/
def dataSize (cs : List Cell) : Nat :=
  (cs.map fun c => if c.type.info.fixed then 0 else c.bytes.length).sum

variable {cs cs₁ cs₂ : List Cell} {c : Cell}

theorem ofCells_concat (cs : List Cell) (c : Cell) :
    ofCells T V (cs ++ [c]) = push T V (ofCells T V cs) c := by
  rw [ofCells, List.foldl_concat]
  rfl

theorem push_fixed (h : c.type.info.fixed = true) :
    push T V im c = { im with fixed := im.fixed ++ c.bytes } := if_pos h

theorem push_var (h : c.type.info.fixed = false) :
    push T V im c = { im with
      starts := im.starts ++ [c.start.getD (T + 4 * (V + 1) + im.data.length)]
      data := im.data ++ c.bytes } := if_neg (by simp [h])

theorem length_ofCells (hfits : ∀ c ∈ cs, c.Fits) :
    (ofCells T V cs).fixed.length = fixedSize (cs.map Cell.type) ∧
      (ofCells T V cs).starts.length = varCount (cs.map Cell.type) ∧
        (ofCells T V cs).data.length = dataSize cs := by
  induction cs using List.reverseRecOn with
  | nil => exact ⟨rfl, rfl, rfl⟩
  | append_singleton cs c ih =>
    obtain ⟨hfixed, hstarts, hdata⟩ := ih fun c hc => hfits c (by simp [hc])
    have hsize : c.Fits := hfits c (by simp)
    rw [ofCells_concat]
    cases hc : c.type.info.fixed with
    | true =>
      rw [push_fixed hc]
      simp [hfixed, hstarts, hdata, fixedSize, varCount, dataSize, hc, hsize hc]
    | false =>
      rw [push_var hc]
      simp [hfixed, hstarts, hdata, fixedSize, varCount, dataSize, hc]

/-- The second image begins as the first one. -/
def Extends (im im' : RowImage) : Prop :=
  im.fixed <+: im'.fixed ∧ im.starts <+: im'.starts ∧ im.data <+: im'.data

private theorem extends_push (im : RowImage) (c : Cell) : Extends im (push T V im c) := by
  cases hc : c.type.info.fixed with
  | true =>
    rw [push_fixed hc]
    exact ⟨List.prefix_append .., List.prefix_refl _, List.prefix_refl _⟩
  | false =>
    rw [push_var hc]
    exact ⟨List.prefix_refl _, List.prefix_append .., List.prefix_append ..⟩

theorem Extends.trans {im₁ im₂ im₃ : RowImage} (h : Extends im₁ im₂) (h' : Extends im₂ im₃) :
    Extends im₁ im₃ := ⟨h.1.trans h'.1, h.2.1.trans h'.2.1, h.2.2.trans h'.2.2⟩

theorem extends_ofCells (cs₁ cs₂ : List Cell) :
    Extends (ofCells T V cs₁) (ofCells T V (cs₁ ++ cs₂)) := by
  induction cs₂ using List.reverseRecOn with
  | nil =>
    rw [List.append_nil]
    exact ⟨List.prefix_refl _, List.prefix_refl _, List.prefix_refl _⟩
  | append_singleton cs₂ c ih =>
    rw [← List.append_assoc, ofCells_concat]
    exact ih.trans (extends_push _ c)

theorem read_of_prefix {p : Nat} {pre d all : List UInt8} (h : mem.read p all.length = all)
    (hpre : pre ++ d <+: all) : mem.read (p + pre.length) d.length = d := by
  obtain ⟨rest, rfl⟩ := hpre
  rw [List.length_append, List.length_append, RawMemory.read_add, RawMemory.read_add] at h
  have h := (List.append_inj h (by simp)).1
  exact (List.append_inj h (by simp)).2

/-! ## Writing a cell -/

/-- The places of the next column, of type `t`, of a table with the types `ts₁` before it. -/
structure Next (T V : Nat) (ts₁ : List Meta.ColumnType) (t : Meta.ColumnType) (im : RowImage) :
    Prop where
  length_fixed : im.fixed.length = fixedSize ts₁
  length_starts : im.starts.length = varCount ts₁
  le_fixed : fixedSize ts₁ ≤ T
  le_starts : varCount ts₁ ≤ V
  roomFixed : t.info.fixed = true → fixedSize ts₁ + t.info.columnTypeSize ≤ T
  roomVar : t.info.fixed = false → varCount ts₁ < V

theorem next_of_split {ts₁ ts₂ : List Meta.ColumnType} (hsplit : ts = ts₁ ++ t :: ts₂)
    (hfixed : im.fixed.length = fixedSize ts₁) (hstarts : im.starts.length = varCount ts₁) :
    Next (fixedSize ts) (varCount ts) ts₁ t im := by
  have hsize : fixedSize ts = fixedSize ts₁ + fixedSize (t :: ts₂) := by rw [hsplit, fixedSize_append]
  have hcount : varCount ts = varCount ts₁ + varCount (t :: ts₂) := by rw [hsplit, varCount_append]
  refine ⟨hfixed, hstarts, by omega, by omega, fun hc => ?_, fun hc => ?_⟩
  · rw [fixedSize_cons hc] at hsize
    omega
  · rw [varCount_cons hc] at hcount
    omega

variable {ts₁ : List Meta.ColumnType}

theorem At.pushFixed (h : im.At mem b T V) (hnext : Next T V ts₁ c.type im)
    (hc : c.type.info.fixed = true) (hfits : c.Fits) :
    (push T V im c).At (mem.write (b + fixedSize ts₁) c.bytes) b T V := by
  have hroom := hnext.roomFixed hc
  have hlen := hfits hc
  rw [push_fixed hc, ← hnext.length_fixed]
  exact h.setFixed (by rw [hnext.length_fixed]; omega)

theorem At.pushVar (h : im.At mem b T V) (hnext : Next T V ts₁ c.type im)
    (hc : c.type.info.fixed = false) (hstart : c.start = none)
    (hfits : T + 4 * (V + 1) + im.data.length + c.bytes.length < 2 ^ 32) :
    let n := T + 4 * (V + 1) + im.data.length
    (push T V im c).At (setOffset (setOffset (mem.write (b + n) c.bytes) (b + T) (varCount ts₁) n)
      (b + T) V (n + c.bytes.length)) b T V := by
  have hroom := hnext.roomVar hc
  have hle := hnext.le_fixed
  rw [← hnext.length_fixed] at hle
  rw [← hnext.length_starts] at hroom ⊢
  rw [push_var hc, hstart]
  exact h.setVar hle hroom hfits

theorem At.pushNull (h : im.At mem b T V) (hnext : Next T V ts₁ c.type im)
    (hc : c.type.info.fixed = false) (hbytes : c.bytes = []) {start : Nat}
    (hstart : c.start.getD (T + 4 * (V + 1) + im.data.length) = start) (hfits : start < 2 ^ 32) :
    (push T V im c).At (setOffset mem (b + T) (varCount ts₁) start) b T V := by
  have hroom := hnext.roomVar hc
  have hle := hnext.le_fixed
  rw [← hnext.length_fixed] at hle
  rw [← hnext.length_starts] at hroom ⊢
  rw [push_var hc, hstart, hbytes, List.append_nil]
  exact h.setStart hle hroom hfits

/-! ## Reading a cell -/

theorem At.read_fixed (h : (ofCells T V (cs₁ ++ c :: cs₂)).At mem b T V)
    (hfits : ∀ c ∈ cs₁, c.Fits) (hc : c.type.info.fixed = true) :
    mem.read (b + fixedSize (cs₁.map Cell.type)) c.bytes.length = c.bytes := by
  have hext : Extends (ofCells T V (cs₁ ++ [c])) (ofCells T V (cs₁ ++ c :: cs₂)) := by
    simpa using extends_ofCells (cs₁ ++ [c]) cs₂
  rw [ofCells_concat, push_fixed hc] at hext
  rw [← (length_ofCells hfits).1]
  exact read_of_prefix h.fixed hext.1

theorem At.read_var (h : (ofCells T V (cs₁ ++ c :: cs₂)).At mem b T V)
    (hfits : ∀ c ∈ cs₁, c.Fits) (hc : c.type.info.fixed = false) :
    offsetAt mem (b + T) (varCount (cs₁.map Cell.type)) =
        c.start.getD (T + 4 * (V + 1) + dataSize cs₁) ∧
      mem.read (b + T + 4 * (V + 1) + dataSize cs₁) c.bytes.length = c.bytes := by
  have hext : Extends (ofCells T V (cs₁ ++ [c])) (ofCells T V (cs₁ ++ c :: cs₂)) := by
    simpa using extends_ofCells (cs₁ ++ [c]) cs₂
  rw [ofCells_concat, push_var hc] at hext
  obtain ⟨-, hstarts, hdata⟩ := length_ofCells hfits
  rw [← hdata]
  refine ⟨h.starts ?_, read_of_prefix h.data hext.2.2⟩
  obtain ⟨rest, hrest⟩ := hext.2.1
  rw [← hrest, ← hstarts]
  simp

theorem dataSize_append (cs₁ cs₂ : List Cell) :
    dataSize (cs₁ ++ cs₂) = dataSize cs₁ + dataSize cs₂ := by
  simp [dataSize]

theorem dataSize_cons (h : c.type.info.fixed = false) :
    dataSize (c :: cs) = c.bytes.length + dataSize cs := by
  simp [dataSize, h]

theorem varCount_of_fixed (h : ∀ c ∈ cs, c.type.info.fixed = true) : varCount (cs.map Cell.type) = 0 := by
  simpa [varCount] using h

theorem dataSize_of_fixed (h : ∀ c ∈ cs, c.type.info.fixed = true) : dataSize cs = 0 := by
  induction cs with
  | nil => rfl
  | cons c cs ih =>
    have hrest := ih fun d hd => h d (by simp [hd])
    simpa [dataSize, h c] using hrest

/-- The start of what follows a column that ends at `n`. -/
def nextStart (n : Nat) (cs : List Cell) : Nat :=
  match cs.find? fun c => !c.type.info.fixed with
  | some c => c.start.getD n
  | none => n

/-- The word behind a column's own is where the next column begins. -/
theorem At.read_next (h : (ofCells T V (cs₁ ++ c :: cs₂)).At mem b T V)
    (hfits : ∀ d ∈ cs₁ ++ c :: cs₂, d.Fits) (hc : c.type.info.fixed = false)
    (hV : V = varCount ((cs₁ ++ c :: cs₂).map Cell.type)) :
    offsetAt mem (b + T) (varCount (cs₁.map Cell.type) + 1) =
      nextStart (T + 4 * (V + 1) + dataSize cs₁ + c.bytes.length) cs₂ := by
  unfold nextStart
  cases hfind : cs₂.find? fun c => !c.type.info.fixed with
  | none =>
    have hall : ∀ c ∈ cs₂, c.type.info.fixed = true := by
      simpa using List.find?_eq_none.mp hfind
    have hlast : V = varCount (cs₁.map Cell.type) + 1 := by
      have hrest := varCount_of_fixed hall
      rw [hV, List.map_append, varCount_append, List.map_cons, ← List.singleton_append, varCount_append,
        hrest]
      simp [varCount, hc]
    rw [← hlast, h.last, (length_ofCells hfits).2.2, dataSize_append]
    have hrest := dataSize_of_fixed hall
    simp only [dataSize, List.map_cons, List.sum_cons, hc] at hrest ⊢
    simp
    omega
  | some d =>
    obtain ⟨hd, as, bs, rfl, has⟩ := List.find?_eq_some_iff_append.mp hfind
    have hall : ∀ c ∈ as, c.type.info.fixed = true := by simpa using has
    have hsplit : cs₁ ++ c :: (as ++ d :: bs) = (cs₁ ++ c :: as) ++ d :: bs := by simp
    rw [hsplit] at h hfits
    obtain ⟨hstart, -⟩ := h.read_var (fun e he => hfits e (List.mem_append_left _ he))
      (by simpa using hd)
    have hplace : varCount ((cs₁ ++ c :: as).map Cell.type) = varCount (cs₁.map Cell.type) + 1 := by
      have hrest := varCount_of_fixed hall
      rw [List.map_append, varCount_append, List.map_cons, ← List.singleton_append, varCount_append,
        hrest]
      simp [varCount, hc]
    have hsize : dataSize (cs₁ ++ c :: as) = dataSize cs₁ + c.bytes.length := by
      have hrest := dataSize_of_fixed hall
      rw [dataSize_append]
      simp only [dataSize, List.map_cons, List.sum_cons, hc] at hrest ⊢
      rw [hrest]
      simp
    rw [← hplace, hstart, hsize, ← Nat.add_assoc]

end RowImage

end DBStream.Native
