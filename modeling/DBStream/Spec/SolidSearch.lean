import DBStream.ForStd.ThreeWay
import DBStream.Spec.FixedIndexCorrect
import DBStream.Spec.VarIndexCorrect

/-!
# Searching a page of an index

`find` halves the range of the keys of a page until it meets the key or the bounds cross.  Bounds
that have crossed stand between the keys that are smaller and those that are greater; the last probe
is next to them, which is where the search answers when every key is smaller.
-/

namespace DBStream.Native

open ThreeWay

namespace SolidIndex

variable {F : FloatOps} {d : List UInt8} {t : ColumnType} {ukMeta : UnionKeyMeta} {keys : List Key}
  {key k : Key} {cmp : Key → Key → Int} {S : Key → Prop} {i j : Nat}

/-! ## The page -/

/-- A page that holds the keys.  A slot of the fixed layout is as long as the head says. -/
structure WellFormed (d : List UInt8) (t : ColumnType) (ukMeta : UnionKeyMeta)
    (keys : List Key) : Prop where
  size : d.length < 2 ^ 32
  keyCount : getKeyCount d = keys.length
  slot : flagFixed d = true → length d = AppendingIndex.keySize ukMeta
  key : ∀ i k, keys[i]? = some k → keyAt d ukMeta t i = .ok k

private theorem pointer_le {pos : Nat} {p : List UInt8} (h : pointer d pos = .ok p) :
    pos ≤ d.length ∧ p = d.drop pos := by
  unfold pointer at h
  split at h
  · next hle =>
    cases h
    exact ⟨hle, rfl⟩
  · cases h

private theorem word_le {pos n : Nat} (h : word d pos = .ok n) : pos + 4 ≤ d.length := by
  unfold word at h
  split at h
  · next hle => exact hle
  · cases h

private theorem keySize_lt (h : length d = AppendingIndex.keySize ukMeta) :
    AppendingIndex.keySize ukMeta < 2 ^ 15 := by
  have hlen : (d.slice 10 2).length ≤ 2 := by simp [List.slice]
  have hnat : LE.nat (d.slice 10 2) < 2 ^ 16 :=
    (LE.nat_lt _).trans_le (Nat.pow_le_pow_right (by omega) hlen)
  unfold length at h
  simp only at h
  split at h <;> omega

/-- A slot of the fixed layout and an offset of the variable one take four bytes at least, so the
sum of two positions is an `int32_t`. -/
theorem WellFormed.keyCount_lt (h : WellFormed d t ukMeta keys) : keys.length < 2 ^ 30 := by
  have hsize := h.size
  by_contra hge
  -- the place of this key would be behind the end
  have hidx : 2 ^ 30 - 1 < keys.length := by omega
  have hkey := h.key (2 ^ 30 - 1) _ (List.getElem?_eq_getElem hidx)
  unfold keyAt at hkey
  split at hkey
  · next hfixed =>
    obtain ⟨p, hp, -⟩ := Exec.of_bind hkey
    have hpos := (pointer_le hp).1
    rw [AppendingIndex.slotPos_eq (keySize_lt (h.slot hfixed)) (by omega) (h.slot hfixed)] at hpos
    unfold AppendingIndex.solidIndexHeadSize at hpos
    omega
  · obtain ⟨p, hp, -⟩ := Exec.of_bind hkey
    obtain ⟨off, hoff, -⟩ := Exec.of_bind hp
    have hpos := word_le hoff
    omega

section Written

open AppendingIndex

variable {entries : List (Key × List Nat)}

theorem bytesAt_of_take {p : List UInt8} {n : Nat} (h : (p.take n).length = n) :
    bytesAt p n = .ok (p.take n) := by
  unfold bytesAt
  rw [List.length_take] at h
  exact if_pos (by omega)

theorem wellFormed_fixed (t : ColumnType) (hkeys : FixedEntries (keySize ukMeta) entries)
    (hfits : FixedFits ukMeta entries)
    (hsize : (ofEntries ukMeta entries).createFixedSolidIndex.length < 2 ^ 32) :
    WellFormed (ofEntries ukMeta entries).createFixedSolidIndex t ukMeta (entries.map Prod.fst) := by
  have hpage := fixedPage hkeys hfits
  have hfixed : flagFixed (ofEntries ukMeta entries).createFixedSolidIndex = true := by
    rw [createFixedSolidIndex_eq, fixedFront, List.append_assoc, flagFixed_head _ _ _ _ _ _ (by simp)]
    rfl
  constructor
  · exact hsize
  · rw [hpage.keyCount, List.length_map]
  · intro _
    rw [createFixedSolidIndex_eq, fixedFront, List.append_assoc,
      length_head _ _ _ _ _ _ hfits.length]
  · intro i k hk
    rw [List.getElem?_map, Option.map_eq_some_iff] at hk
    obtain ⟨e, he, rfl⟩ := hk
    obtain ⟨p, hp, htake⟩ := hpage.key i e he
    have hlen := hkeys.keys e (List.mem_of_getElem? he)
    rw [keyAt, if_pos hfixed, hp, Exec.ok_bind, ← htake]
    exact bytesAt_of_take (by rw [htake, hlen])

theorem wellFormed_var (htype : VarType ukMeta) (hentries : VarEntries (typeOf ukMeta) entries)
    (hfits : varReserved ukMeta entries < 2 ^ 32) :
    WellFormed (ofEntries ukMeta entries).createVarSolidIndex (typeOf ukMeta) ukMeta
      (entries.map Prod.fst) := by
  have hpage := varPage htype hentries hfits
  obtain ⟨hlen, hlt, -⟩ := length_createVarSolidIndex htype hentries hfits
  have hfixed : flagFixed (ofEntries ukMeta entries).createVarSolidIndex = false := by
    rw [createVarSolidIndex_eq, varFront, List.append_assoc, flagFixed_head _ _ _ _ _ _ (by simp)]
    rfl
  constructor
  · omega
  · rw [hpage.keyCount, List.length_map]
  · simp [hfixed]
  · intro i k hk
    rw [List.getElem?_map, Option.map_eq_some_iff] at hk
    obtain ⟨e, he, rfl⟩ := hk
    obtain ⟨p, hp, hread⟩ := hpage.key i e he
    obtain ⟨pre, post, hpre, rfl⟩ := List.exists_append_cons_of_getElem? he
    obtain ⟨front, rest, hfront, hsplit⟩ := createVarSolidIndex_entry ukMeta hpre
    obtain ⟨content, hshort, hkey, -⟩ := (hentries.keys e (by simp [hpre])).content
    -- the pointer is at the entry, which starts with the length of its key
    have hp' : p = LE.bytes 2 content.length ++ (content ++
        (LE.bytes 4 e.2.length ++ (words e.2 ++ rest))) := by
      rw [VarSolidIndex.getKey, word_varOffsets hpre hlt rfl, Exec.ok_bind, hsplit,
        pointer_append hfront] at hp
      cases hp
      simp [varEntry, hkey]
    have hroom : 2 + LE.nat (p.take 2) ≤ p.length := by
      rw [hp', List.take_left' (LE.length_bytes 2 _), LE.nat_bytes_of_lt (by omega)]
      simp only [List.length_append, LE.length_bytes]
      omega
    rw [keyAt, hfixed, hp, ← hread]
    simp only [Bool.false_eq_true, if_false, Exec.ok_bind, bytesAt, if_pos hroom]
    rfl

end Written

/-! ## The search -/

/-- Where a key stands to the one it is compared with. -/
def side (c : Int) : Ordering := if 0 < c then .gt else if c < 0 then .lt else .eq

theorem side_eq_gt {c : Int} : side c = .gt ↔ 0 < c := by
  unfold side
  split <;> [simp [*]; split <;> simp [*]]

theorem side_eq_lt {c : Int} : side c = .lt ↔ c < 0 := by
  unfold side
  split
  · simp
    omega
  · split <;> simp [*]

theorem side_eq_eq {c : Int} : side c = .eq ↔ c = 0 := by
  unfold side
  split
  · simp
    omega
  · split <;> simp <;> omega

/-- What the search needs of the comparison: it answers for the keys of the page and the key that is
sought, it is a total order of them, and the keys of the page are in that order. -/
structure Sorted (F : FloatOps) (t : ColumnType) (ukMeta : UnionKeyMeta) (keys : List Key)
    (key : Key) (cmp : Key → Key → Int) (S : Key → Prop) : Prop where
  key_mem : S key
  keys_mem : ∀ k ∈ keys, S k
  answers : ∀ a b, S a → S b → findCompare F ukMeta t a b = .ok (cmp a b)
  total : IsTotal cmp S
  increasing : keys.Pairwise fun a b => cmp a b < 0

/-- The least position of a key that is not smaller, or the last position. -/
def LeastOrLast (cmp : Key → Key → Int) (keys : List Key) (key : Key) (i : Nat) : Prop :=
  i < keys.length ∧ (∀ j k, j < i → keys[j]? = some k → cmp k key < 0) ∧
    ∀ k, keys[i]? = some k → 0 ≤ cmp k key ∨ i + 1 = keys.length

/-- The side of the key at a position. -/
private def sideAt (cmp : Key → Key → Int) (keys : List Key) (key : Key) (i : Int) : Ordering :=
  side (cmp key (keys.getD i.toNat []))

private theorem sideAt_eq {i : Nat} (h : keys[i]? = some k) :
    sideAt cmp keys key i = side (cmp key k) := by
  simp [sideAt, List.getD_eq_getElem?_getD, h]

/-- The comparisons of `findPos` order the places of a page. -/
private theorem searchOrder (hpage : WellFormed d t ukMeta keys)
    (hsorted : Sorted F t ukMeta keys key cmp S) :
    SearchOrder (fun m => do
      let c ← findCompare F ukMeta t key (← keyAt d ukMeta t m.toNat)
      return if 0 < c then .gt else if c < 0 then .lt else .eq)
      (sideAt cmp keys key) 0 ((keys.length : Int) - 1) := by
  have hget : ∀ i : Int, 0 ≤ i → i ≤ (keys.length : Int) - 1 →
      ∃ k, keys[i.toNat]? = some k ∧ k ∈ keys := by
    intro i hlo hhi
    have hlt : i.toNat < keys.length := by omega
    exact ⟨keys[i.toNat], List.getElem?_eq_getElem hlt, List.getElem_mem hlt⟩
  have hside : ∀ i : Int, 0 ≤ i → ∀ k, keys[i.toNat]? = some k →
      sideAt cmp keys key i = side (cmp key k) := by
    intro i hlo k hk
    rw [← sideAt_eq hk, Int.toNat_of_nonneg hlo]
  have hltOf : ∀ i j : Int, 0 ≤ i → i < j → ∀ a b, keys[i.toNat]? = some a →
      keys[j.toNat]? = some b → cmp a b < 0 := by
    intro i j hlo hij a b ha hb
    obtain ⟨hi, rfl⟩ := List.getElem?_eq_some_iff.mp ha
    obtain ⟨hj, rfl⟩ := List.getElem?_eq_some_iff.mp hb
    exact List.pairwise_iff_getElem.mp hsorted.increasing _ _ hi hj (by omega)
  have htotal := hsorted.total
  constructor
  · intro i hlo hhi
    obtain ⟨k, hk, hmem⟩ := hget i hlo hhi
    rw [hside i hlo k hk]
    simp only [hpage.key _ _ hk, Exec.ok_bind,
      hsorted.answers key k hsorted.key_mem (hsorted.keys_mem k hmem)]
    rfl
  · intro i j hlo hij hhi hgt
    obtain ⟨a, ha, hamem⟩ := hget i hlo (by omega)
    obtain ⟨b, hb, hbmem⟩ := hget j (by omega) hhi
    rw [hside j (by omega) b hb, side_eq_gt] at hgt
    rw [hside i hlo a ha, side_eq_gt]
    have hSa := hsorted.keys_mem a hamem
    have hSb := hsorted.keys_mem b hbmem
    -- `a` is smaller than `b`, and `b` is smaller than the key
    have hbkey := (htotal.pos_iff hSb hsorted.key_mem).mp hgt
    exact (htotal.pos_iff hSa hsorted.key_mem).mpr
      (htotal.lt_trans hSa hSb hsorted.key_mem (hltOf i j hlo hij a b ha hb) (Int.le_of_lt hbkey))
  · intro i j hlo hij hhi hlt
    obtain ⟨a, ha, hamem⟩ := hget i hlo (by omega)
    obtain ⟨b, hb, hbmem⟩ := hget j (by omega) hhi
    rw [hside i hlo a ha, side_eq_lt] at hlt
    rw [hside j (by omega) b hb, side_eq_lt]
    exact htotal.lt_trans hsorted.key_mem (hsorted.keys_mem a hamem) (hsorted.keys_mem b hbmem) hlt
      (Int.le_of_lt (hltOf i j hlo hij a b ha hb))

private theorem toInt32_keyCount (hpage : WellFormed d t ukMeta keys) :
    toInt32 (getKeyCount d) = keys.length ∧
      toInt32 ((getKeyCount d : Int) - 1) = (keys.length : Int) - 1 := by
  have hlt := hpage.keyCount_lt
  rw [hpage.keyCount]
  unfold toInt32
  omega

/-- How the search ends: with the position of the key, or with bounds that have crossed at `s`, which
is behind the smaller keys and in front of the greater ones; the last probe is next to it. -/
theorem search_ends (hpage : WellFormed d t ukMeta keys)
    (hsorted : Sorted F t ukMeta keys key cmp S) :
    (∃ i : Nat, keys[i]? = some key ∧ ∀ b, findPos F d ukMeta t key b = .ok i) ∨
    ∃ s m : Nat, s ≤ keys.length ∧ (keys ≠ [] → s = keys.length → m + 1 = s) ∧
      (∀ j k, j < s → keys[j]? = some k → cmp k key < 0) ∧
      (∀ j k, s ≤ j → keys[j]? = some k → 0 < cmp k key) ∧
      findPos F d ukMeta t key true = .ok (-1) ∧
      (keys ≠ [] → findPos F d ukMeta t key false = .ok (if s < keys.length then s else m)) := by
  obtain ⟨hcount, hlast⟩ := toInt32_keyCount hpage
  have hfuel : (keys.length : Int) - 1 + 1 - 0 < (getKeyCount d + 1 : Nat) := by
    rw [hpage.keyCount]
    omega
  obtain ⟨found, m, s, e, hsearch, hend⟩ := binarySearch_spec Fault.endless
    (searchOrder hpage hsorted) (SearchInv.start (sideAt cmp keys key) (by omega) 0) hfuel
  have hS : ∀ {j k}, keys[j]? = some k → S k := fun h => hsorted.keys_mem _ (List.mem_of_getElem? h)
  rcases hend with ⟨rfl, hlo, hhi, heq⟩ | ⟨rfl, hcross, hinv⟩
  · -- a hit, at the place of an equal key
    have hm : m.toNat < keys.length := by omega
    have hat := List.getElem?_eq_getElem hm
    rw [← Int.toNat_of_nonneg hlo, sideAt_eq hat, side_eq_eq] at heq
    have hkey := hsorted.total.eq_of_zero _ _ hsorted.key_mem (hS hat) heq
    refine .inl ⟨m.toNat, by rw [hat, ← hkey], fun b => ?_⟩
    simp only [findPos, hlast, hsearch, Exec.ok_bind, if_true]
    rw [Int.toNat_of_nonneg hlo]
    rfl
  · have hle := hinv.lo_le
    have hprobe := hinv.probe
    refine .inr ⟨s.toNat, m.toNat, by omega, ?_, ?_, ?_, ?_, ?_⟩
    · intro hne hs
      have hpos := List.length_pos_of_ne_nil hne
      omega
    · intro j k hj hk
      have hbelow := hinv.below j (by omega) (by omega)
      rw [sideAt_eq hk, side_eq_gt] at hbelow
      exact (hsorted.total.pos_iff (hS hk) hsorted.key_mem).mp hbelow
    · intro j k hj hk
      obtain ⟨hjlt, -⟩ := List.getElem?_eq_some_iff.mp hk
      have habove := hinv.above j (by omega) (by omega)
      rw [sideAt_eq hk, side_eq_lt] at habove
      exact (hsorted.total.pos_iff hsorted.key_mem (hS hk)).mpr habove
    · simp only [findPos, hlast, hsearch, Exec.ok_bind, Bool.false_eq_true, if_false, if_true]
      rfl
    · intro hne
      have hpos := List.length_pos_of_ne_nil hne
      simp only [findPos, hlast, hcount, hsearch, Exec.ok_bind, Bool.false_eq_true, if_false]
      -- below the first key the bounds cross at 0
      by_cases he : e < 0
      · simp only [if_pos he]
        rw [if_pos (by omega), show s.toNat = 0 by omega]
        rfl
      · simp only [if_neg he]
        by_cases hs : s < keys.length
        · rw [if_pos hs, if_pos (by omega), Int.toNat_of_nonneg hle]
          rfl
        · rw [if_neg hs, if_neg (by omega), Int.toNat_of_nonneg (by omega)]
          rfl

/-- `find` is exact.  With `equalOrGreater` it answers with the position of the key, or with -1 if
the page does not have it; without, on a page that is not empty, with the least position of a key
that is not smaller, or with the last one. -/
theorem findPos_exact (hpage : WellFormed d t ukMeta keys)
    (hsorted : Sorted F t ukMeta keys key cmp S) :
    (∀ i : Nat, keys[i]? = some key → findPos F d ukMeta t key true = .ok i) ∧
      (key ∉ keys → findPos F d ukMeta t key true = .ok (-1)) ∧
      (keys ≠ [] → ∃ i : Nat, LeastOrLast cmp keys key i ∧
        findPos F d ukMeta t key false = .ok i) := by
  have hself : cmp key key = 0 := (hsorted.total.eq_zero_iff hsorted.key_mem hsorted.key_mem).mpr rfl
  have hlt : ∀ i j : Nat, i < j → ∀ a b, keys[i]? = some a → keys[j]? = some b → cmp a b < 0 := by
    intro i j hij a b ha hb
    obtain ⟨hi, rfl⟩ := List.getElem?_eq_some_iff.mp ha
    obtain ⟨hj, rfl⟩ := List.getElem?_eq_some_iff.mp hb
    exact List.pairwise_iff_getElem.mp hsorted.increasing _ _ hi hj hij
  rcases search_ends hpage hsorted with ⟨i, hi, hfind⟩ | ⟨s, m, hle, hm, hbelow, habove, hexact, hnear⟩
  · refine ⟨fun j hj => ?_, fun hnot => absurd (List.mem_of_getElem? hi) hnot, fun hne => ?_⟩
    · -- the key is there once
      rcases Nat.lt_trichotomy i j with h | rfl | h
      · have hcmp := hlt i j h key key hi hj
        omega
      · exact hfind true
      · have hcmp := hlt j i h key key hj hi
        omega
    · obtain ⟨hilt, -⟩ := List.getElem?_eq_some_iff.mp hi
      refine ⟨i, ⟨hilt, fun j k hj hk => hlt j i hj k key hk hi, fun k hk => .inl ?_⟩, hfind false⟩
      rw [hi] at hk
      cases hk
      omega
  · refine ⟨fun j hj => ?_, fun _ => hexact, fun hne => ?_⟩
    · -- a key of the page would be on one of the sides
      rcases Nat.lt_or_ge j s with h | h
      · have hcmp := hbelow j key h hj
        omega
      · have hcmp := habove j key h hj
        omega
    · have hpos := List.length_pos_of_ne_nil hne
      have hfind := hnear hne
      split at hfind
      · next hs =>
        exact ⟨s, ⟨hs, hbelow, fun k hk => .inl (Int.le_of_lt (habove s k (Nat.le_refl s) hk))⟩,
          hfind⟩
      · next hs =>
        have hms := hm hne (by omega)
        exact ⟨m, ⟨by omega, fun j k hj hk => hbelow j k (by omega) hk, fun _ _ => .inr (by omega)⟩,
          hfind⟩

/-! ## The keys that are sought -/

theorem sorted_integer (ht : t.integer) (hkey : key.length = t.columnTypeSize)
    (hkeys : ∀ k ∈ keys, k.length = t.columnTypeSize)
    (hlt : keys.Pairwise fun a b => intValue t a < intValue t b) :
    Sorted F t ukMeta keys key (fun a b => compareInt (intValue t a) (intValue t b))
      (fun k => k.length = t.columnTypeSize) where
  key_mem := hkey
  keys_mem := hkeys
  answers a b _ _ := by
    have hcompare : AppendingIndex.compareKey F t ukMeta a b =
        .ok (compareInt (intValue t a) (intValue t b)) := compareKey_integer ht
    cases t <;> first | exact hcompare | cases ht
  total := by
    have hsign : ∀ a b : Key, a.length = t.columnTypeSize → b.length = t.columnTypeSize →
        (compareInt (intValue t a) (intValue t b)).sign = order (intValue t a) (intValue t b) :=
      fun _ _ _ _ => sign_eq_order compareInt_neg compareInt_pos
    exact IsTotal.of_rank hsign fun _ _ => intValue_inj
  increasing := hlt.imp compareInt_neg.mpr

theorem sorted_binary (hlt : keys.Pairwise fun a b => binaryCompare a b < 0) :
    Sorted F .T_STRING ukMeta keys key binaryCompare (fun _ => True) where
  key_mem := trivial
  keys_mem _ _ := trivial
  answers _ _ _ _ := rfl
  total := by
    let bytes (a : Key) : List Int := a.map fun x => (x.toNat : Int)
    have hsign : ∀ a b : Key, True → True →
        (binaryCompare a b).sign = order (bytes a) (bytes b) :=
      fun a b _ _ => sign_eq_order (binaryCompare_spec a b).1 (binaryCompare_spec a b).2
    have hinj : Function.Injective fun x : UInt8 => (x.toNat : Int) :=
      fun x y hxy => UInt8.toNat_inj.mp (Int.ofNat_inj.mp hxy)
    exact IsTotal.of_rank hsign fun a b _ _ h => List.map_injective_iff.mpr hinj h
  increasing := hlt

def twoKeys : List (Key × List Nat) := [([5, 0, 0, 0], [1]), ([9, 0, 0, 0], [0, 2])]

def twoKeysPage : List UInt8 :=
  (AppendingIndex.ofEntries (UnionKeyMeta.createUnionKey [⟨.T_UINT32, 0⟩]) twoKeys).createFixedSolidIndex

/-- The key 7 is not on the page; the next one is at position 1. -/
theorem findPos_exact_between :
    (∀ i : Nat, [[5, 0, 0, 0], [9, 0, 0, 0]][i]? = some ([7, 0, 0, 0] : Key) →
      findPos noFloats twoKeysPage (UnionKeyMeta.createUnionKey [⟨.T_UINT32, 0⟩]) .T_UINT32
        [7, 0, 0, 0] true = .ok i) ∧
      (([7, 0, 0, 0] : Key) ∉ [[5, 0, 0, 0], [9, 0, 0, 0]] →
        findPos noFloats twoKeysPage (UnionKeyMeta.createUnionKey [⟨.T_UINT32, 0⟩]) .T_UINT32
          [7, 0, 0, 0] true = .ok (-1)) ∧
      ([[5, 0, 0, 0], [9, 0, 0, 0]] ≠ ([] : List Key) → ∃ i : Nat,
        LeastOrLast (fun a b => compareInt (intValue .T_UINT32 a) (intValue .T_UINT32 b))
          [[5, 0, 0, 0], [9, 0, 0, 0]] [7, 0, 0, 0] i ∧
        findPos noFloats twoKeysPage (UnionKeyMeta.createUnionKey [⟨.T_UINT32, 0⟩]) .T_UINT32
          [7, 0, 0, 0] false = .ok i) := by
  have hpage : WellFormed twoKeysPage .T_UINT32 (UnionKeyMeta.createUnionKey [⟨.T_UINT32, 0⟩])
      [[5, 0, 0, 0], [9, 0, 0, 0]] := by
    refine ⟨by decide, by decide, fun _ => by decide, fun i k hk => ?_⟩
    match i with
    | 0 =>
      cases hk
      rfl
    | 1 =>
      cases hk
      rfl
    | i + 2 => simp at hk
  exact findPos_exact hpage (sorted_integer rfl rfl (by decide) (by decide))

end SolidIndex

end DBStream.Native
