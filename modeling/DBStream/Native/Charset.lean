import Mathlib.Data.List.Basic

/-!
# Charsets

`getCharset` of `meta/charset.cpp`: a binary search by name.  The table gives each charset the name
of its enumerator, so a row of `charsets` is the enumerator here.
-/

namespace DBStream.Native

inductive CHARSET where
  | big5 | dec8 | cp850 | hp8 | koi8r | latin1 | latin2 | swe7 | ascii | ujis | sjis | hebrew
  | tis620 | euckr | koi8u | gb2312 | greek | cp1250 | gbk | latin5 | armscii8 | utf8 | ucs2
  | cp866 | keybcs2 | macce | macroman | cp852 | latin7 | utf8mb4 | cp1251 | utf16 | utf16le
  | cp1256 | cp1257 | utf32 | binary | geostd8 | cp932 | eucjpms | gb18030
  deriving DecidableEq

def CHARSET.id (c : CHARSET) : Nat := c.ctorIdx

def sortedCharsetInfo : List (String × CHARSET) :=
  [("armscii8", .armscii8), ("ascii", .ascii), ("big5", .big5), ("binary", .binary),
   ("cp1250", .cp1250), ("cp1251", .cp1251), ("cp1256", .cp1256), ("cp1257", .cp1257),
   ("cp850", .cp850), ("cp852", .cp852), ("cp866", .cp866), ("cp932", .cp932), ("dec8", .dec8),
   ("eucjpms", .eucjpms), ("euckr", .euckr), ("gb18030", .gb18030), ("gb2312", .gb2312),
   ("gbk", .gbk), ("geostd8", .geostd8), ("greek", .greek), ("hebrew", .hebrew), ("hp8", .hp8),
   ("keybcs2", .keybcs2), ("koi8r", .koi8r), ("koi8u", .koi8u), ("latin1", .latin1),
   ("latin2", .latin2), ("latin5", .latin5), ("latin7", .latin7), ("macce", .macce),
   ("macroman", .macroman), ("sjis", .sjis), ("swe7", .swe7), ("tis620", .tis620),
   ("ucs2", .ucs2), ("ujis", .ujis), ("utf16", .utf16), ("utf16le", .utf16le), ("utf32", .utf32),
   ("utf8", .utf8), ("utf8mb4", .utf8mb4)]

def MAX_CHARSET : Nat := 41

/-- A byte in lower case. -/
def tolower (c : UInt8) : UInt8 := if 65 ≤ c ∧ c ≤ 90 then c + 32 else c

/-- `strcasecmp`: the difference where the strings first differ, with the NUL at their ends. -/
def strcasecmp : List UInt8 → List UInt8 → Int
  | [], [] => 0
  | [], d :: _ => -((tolower d).toNat : Int)
  | c :: _, [] => (tolower c).toNat
  | c :: s, d :: t =>
    if tolower c = tolower d then strcasecmp s t else (tolower c).toNat - (tolower d).toNat

/-- The bytes of a name of the table. -/
def nameString (name : String) : List UInt8 := name.toList.map fun c => UInt8.ofNat c.toNat

/-- The loop of `getCharset`.  The comparison is kept in an `int8_t`. -/
def getCharsetLoop (name : List UInt8) : Nat → Int → Int → Option CHARSET
  | 0, _, _ => none
  | fuel + 1, s, e =>
    if s ≤ e ∧ s < MAX_CHARSET then
      let m := (s + e) / 2
      match sortedCharsetInfo[m.toNat]? with
      | none => none
      | some (nameOf, charset) =>
        let c := (strcasecmp (nameString nameOf) name).bmod 256
        if c = 0 then some charset
        else if 0 < c then getCharsetLoop name fuel s (m - 1)
        else getCharsetLoop name fuel (m + 1) e
    else none

def getCharset (name : List UInt8) : Option CHARSET :=
  getCharsetLoop name (MAX_CHARSET + 1) 0 (MAX_CHARSET - 1)

/-! ## The charset of a name -/

theorem tolower_tolower (c : UInt8) : tolower (tolower c) = tolower c := by
  unfold tolower
  split
  · rename_i hupper
    rw [if_neg]
    simp only [UInt8.le_iff_toNat_le, UInt8.toNat_add] at hupper ⊢
    simp at *
    omega
  · rfl

theorem tolower_ne_zero {c : UInt8} (h : c ≠ 0) : tolower c ≠ 0 := by
  unfold tolower
  split
  · rename_i hupper
    simp only [UInt8.le_iff_toNat_le] at hupper
    intro hzero
    have hnat := congrArg UInt8.toNat hzero
    simp [UInt8.toNat_add] at *
    omega
  · exact h

theorem strcasecmp_lower (s t : List UInt8) : strcasecmp s (t.map tolower) = strcasecmp s t := by
  induction s generalizing t with
  | nil =>
    cases t with
    | nil => rfl
    | cons d t => simp [strcasecmp, tolower_tolower]
  | cons c s ih =>
    cases t with
    | nil => rfl
    | cons d t => simp [strcasecmp, tolower_tolower, ih]

theorem eq_zero_of_bmod {x : Int} (h : x.bmod 256 = 0) (hlo : -256 < x) (hhi : x < 256) : x = 0 := by
  have hdvd := Int.dvd_of_bmod_eq_zero h
  omega

theorem eq_of_strcasecmp {s t : List UInt8} (h : (strcasecmp s t).bmod 256 = 0)
    (hs : 0 ∉ s) (ht : 0 ∉ t) : s.map tolower = t.map tolower := by
  induction s generalizing t with
  | nil =>
    cases t with
    | nil => rfl
    | cons d t =>
      have hd : tolower d ≠ 0 := tolower_ne_zero fun hd => ht (by simp [hd])
      have hlt := (tolower d).toNat_lt
      have hzero := eq_zero_of_bmod h (by simp only [strcasecmp]; omega)
        (by simp only [strcasecmp]; omega)
      exact absurd (UInt8.toNat_inj.mp (by simpa [strcasecmp] using hzero)) hd
  | cons c s ih =>
    have hc : tolower c ≠ 0 := tolower_ne_zero fun hc => hs (by simp [hc])
    have hclt := (tolower c).toNat_lt
    cases t with
    | nil =>
      have hzero := eq_zero_of_bmod h (by simp only [strcasecmp]; omega)
        (by simp only [strcasecmp]; omega)
      exact absurd (UInt8.toNat_inj.mp (by simpa [strcasecmp] using hzero)) hc
    | cons d t =>
      have hdlt := (tolower d).toNat_lt
      rw [strcasecmp] at h
      by_cases heq : tolower c = tolower d
      · rw [if_pos heq] at h
        have hrest := ih h (fun hm => hs (List.mem_cons_of_mem _ hm))
          (fun hm => ht (List.mem_cons_of_mem _ hm))
        simp [heq, hrest]
      · rw [if_neg heq] at h
        have hzero := eq_zero_of_bmod h (by omega) (by omega)
        exact absurd (UInt8.toNat_inj.mp (by omega)) heq

theorem getCharsetLoop_lower (name : List UInt8) (fuel : Nat) (s e : Int) :
    getCharsetLoop (name.map tolower) fuel s e = getCharsetLoop name fuel s e := by
  induction fuel generalizing s e with
  | zero => rfl
  | succ fuel ih => simp only [getCharsetLoop, strcasecmp_lower, ih]

theorem getCharset_nameString :
    ∀ row ∈ sortedCharsetInfo, getCharset (nameString row.1) = some row.2 := by
  intro row hrow
  rw [← List.take_append_drop 20 sortedCharsetInfo, List.mem_append] at hrow
  obtain hrow | hrow := hrow
  · revert row
    decide +kernel
  · revert row
    decide +kernel

theorem nameString_lower : ∀ row ∈ sortedCharsetInfo,
    (nameString row.1).map tolower = nameString row.1 ∧ 0 ∉ nameString row.1 := by
  decide +kernel

theorem getCharsetLoop_some {name : List UInt8} {c : CHARSET} {fuel : Nat} {s e : Int}
    (h : getCharsetLoop name fuel s e = some c) (hname : 0 ∉ name) :
    ∃ row ∈ sortedCharsetInfo, row.2 = c ∧ nameString row.1 = name.map tolower := by
  induction fuel generalizing s e with
  | zero => exact absurd h (by simp [getCharsetLoop])
  | succ fuel ih =>
    simp only [getCharsetLoop] at h
    split at h
    · split at h
      · exact absurd h (by simp)
      · rename_i nameOf charset hrow
        have hmem := List.mem_of_getElem? hrow
        obtain ⟨hlower, hnul⟩ := nameString_lower _ hmem
        split at h
        · rename_i hzero
          refine ⟨_, hmem, Option.some.inj h, ?_⟩
          rw [← hlower]
          exact eq_of_strcasecmp hzero hnul hname
        · split at h
          · exact ih h
          · exact ih h
    · exact absurd h (by simp)

theorem getCharset_eq {name : List UInt8} (hname : 0 ∉ name) :
    getCharset name =
      (sortedCharsetInfo.find? fun row => nameString row.1 = name.map tolower).map Prod.snd := by
  cases hfind : sortedCharsetInfo.find? fun row => nameString row.1 = name.map tolower with
  | some row =>
    have hrow : nameString row.1 = name.map tolower := by simpa using List.find?_some hfind
    have hfound := getCharset_nameString row (List.mem_of_find?_eq_some hfind)
    rw [hrow, getCharset, getCharsetLoop_lower] at hfound
    exact hfound
  | none =>
    cases hget : getCharset name with
    | none => rfl
    | some c =>
      obtain ⟨row, hmem, _, hrow⟩ := getCharsetLoop_some hget hname
      have hne := List.find?_eq_none.mp hfind row hmem
      exact absurd (by simpa using hrow) hne

end DBStream.Native
