import DBStream.Spec.IndexKeys
import DBStream.Spec.IndexPage

/-!
# The fixed page of an index

The page of `createFixedSolidIndex` is read back as the entries of the index where its fields are
wide enough: 15 bits for the length of a key, 24 for the place of a list of ids.
-/

namespace DBStream.Native

open Grouping SolidIndex

/-! ## What is read -/

/-- The page read back is the entries. -/
structure FixedPage (d : List UInt8) (keySize : Nat) (entries : List (Key × List Nat)) : Prop where
  keyCount : getKeyCount d = entries.length
  key : ∀ i e, entries[i]? = some e →
    ∃ p, FixedSolidIndex.getKey d i = .ok p ∧ p.take keySize = e.1
  recordIds : ∀ i e, entries[i]? = some e → FixedSolidIndex.getRecordIdByIndex d i = .ok e.2

/-! ## What fits -/

/-- The place where the lists of ids start. -/
def externPos (keySize keyCount : Nat) : Nat :=
  AppendingIndex.solidIndexHeadSize + (keySize + 4) * (keyCount + 1)

/-- The length of the lists of ids. -/
def externSize (entries : List (Key × List Nat)) : Nat :=
  (entries.map fun e => (AppendingIndex.externOf e.2).length).sum

/-- The fields of the page are wide enough for the entries, and its buffer for all of it. -/
structure FixedFits (ukMeta : UnionKeyMeta) (entries : List (Key × List Nat)) : Prop where
  length : AppendingIndex.keySize ukMeta < 2 ^ 15
  offset : ∀ pre e post, entries = pre ++ e :: post → e.2.length ≠ 1 →
    externPos (AppendingIndex.keySize ukMeta) entries.length + externSize pre < 2 ^ 24
  room : externPos (AppendingIndex.keySize ukMeta) entries.length + externSize entries ≤
    AppendingIndex.bufferSize (AppendingIndex.ofEntries ukMeta entries).toSolidIndexSize

/-! ## The slots -/

namespace AppendingIndex

variable {w off n : Nat} {nodes pre post : List (Key × List Nat)} {e : Key × List Nat}
  {ids : List Nat} {index : AppendingIndex} {d : List UInt8}

theorem length_lists (nodes : List (Key × List Nat)) :
    (nodes.flatMap fun e => externOf e.2).length = externSize nodes := by
  rw [List.length_flatMap]
  rfl

private theorem fixedSlots_append (pre nodes : List (Key × List Nat)) (off : Nat) :
    fixedSlots (pre ++ nodes) off =
      fixedSlots pre off ++ fixedSlots nodes (off + externSize pre) := by
  induction pre generalizing off with
  | nil => rfl
  | cons x pre ih =>
    rw [List.cons_append, fixedSlots, fixedSlots, ih]
    simp [externSize, Nat.add_assoc]

private theorem length_fixedSlots (hkeys : ∀ x ∈ nodes, x.1.length = w) (off : Nat) :
    (fixedSlots nodes off).length = (w + 4) * nodes.length := by
  induction nodes generalizing off with
  | nil => rfl
  | cons x nodes ih =>
    rw [fixedSlots, List.length_append, List.length_append, LE.length_bytes,
      hkeys x List.mem_cons_self, ih fun y hy => hkeys y (List.mem_cons_of_mem x hy),
      List.length_cons]
    ring

/-! ## The word behind a key -/

theorem idWord_short (h1 : ids.length ≠ 1) (hshort : ids.length < 0x7f) (hoff : off < 2 ^ 24) :
    idWord ids off = ids.length * 2 ^ 24 + off := by
  have heq : idWord ids off = ids.length <<< 24 ||| off := by
    unfold idWord
    split
    · simp at h1
    · rw [if_pos hshort]
  rw [heq, ← Nat.shiftLeft_add_eq_or_of_lt hoff, Nat.shiftLeft_eq]

private theorem idWord_long (hlong : 0x7f ≤ ids.length) (hoff : off < 2 ^ 24) :
    idWord ids off = 2 ^ 31 + off := by
  have heq : idWord ids off = 0x80 <<< 24 ||| off := by
    unfold idWord
    split
    · simp at hlong
    · rw [if_neg (by omega)]
  rw [heq, ← Nat.shiftLeft_add_eq_or_of_lt hoff, show 0x80 <<< 24 = 2 ^ 31 by rfl]

theorem externOf_short (h1 : ids.length ≠ 1) (hshort : ids.length < 0x7f) :
    externOf ids = words ids := by
  unfold externOf
  split
  · simp at h1
  · rw [if_pos hshort]

theorem externOf_long (hlong : 0x7f ≤ ids.length) :
    externOf ids = LE.bytes 4 ids.length ++ words ids := by
  unfold externOf
  split
  · simp at hlong
  · rw [if_neg (by omega)]

/-! ## The page -/

/-- What an index with fixed keys is about: the keys have one length, and each has ids. -/
structure FixedEntries (w : Nat) (entries : List (Key × List Nat)) : Prop where
  keys : ∀ e ∈ entries, e.1.length = w
  nonempty : ∀ e ∈ entries, e.2 ≠ []
  ids : ∀ e ∈ entries, ∀ id ∈ e.2, id < 2 ^ 24
  count : ∀ e ∈ entries, e.2.length < 2 ^ 32
  keyCount : entries.length < 2 ^ 32

variable {ukMeta : UnionKeyMeta} {entries : List (Key × List Nat)}

/-- The head and the slots in front of an entry. -/
def fixedFront (ukMeta : UnionKeyMeta) (entries pre : List (Key × List Nat)) : List UInt8 :=
  let pos := externPos (keySize ukMeta) entries.length
  solidIndexHead (pos + externSize entries) entries.length (typeOf ukMeta) 1 (keySize ukMeta) ++
    fixedSlots pre pos

theorem createFixedSolidIndex_eq (ukMeta : UnionKeyMeta) (entries : List (Key × List Nat)) :
    (ofEntries ukMeta entries).createFixedSolidIndex = fixedFront ukMeta entries entries ++
      (List.replicate (keySize ukMeta + 4) 0 ++ entries.flatMap fun e => externOf e.2) := by
  rw [fixedFront, ← length_lists, List.append_assoc]
  rfl

theorem length_fixedFront (hpre : ∀ x ∈ pre, x.1.length = keySize ukMeta) :
    (fixedFront ukMeta entries pre).length =
      solidIndexHeadSize + (keySize ukMeta + 4) * pre.length := by
  simp [fixedFront, length_fixedSlots hpre]

theorem createFixedSolidIndex_slot (ukMeta : UnionKeyMeta) (hentries : entries = pre ++ e :: post) :
    ∃ rest, (ofEntries ukMeta entries).createFixedSolidIndex =
      fixedFront ukMeta entries pre ++ (e.1 ++ (LE.bytes 4 (idWord e.2
        (externPos (keySize ukMeta) entries.length + externSize pre)) ++ rest)) := by
  have hslots := fixedSlots_append pre (e :: post) (externPos (keySize ukMeta) entries.length)
  rw [← hentries, fixedSlots] at hslots
  rw [createFixedSolidIndex_eq, fixedFront, fixedFront, hslots]
  simp only [List.append_assoc]
  exact ⟨_, rfl⟩

theorem createFixedSolidIndex_extern (hkeys : FixedEntries (keySize ukMeta) entries)
    (hentries : entries = pre ++ e :: post) :
    ∃ front rest, front.length = externPos (keySize ukMeta) entries.length + externSize pre ∧
      (ofEntries ukMeta entries).createFixedSolidIndex = front ++ (externOf e.2 ++ rest) := by
  have hlists : (entries.flatMap fun e => externOf e.2) =
      (pre.flatMap fun e => externOf e.2) ++ (externOf e.2 ++
        post.flatMap fun e => externOf e.2) := by
    rw [hentries, List.flatMap_append, List.flatMap_cons]
  rw [createFixedSolidIndex_eq, hlists]
  refine ⟨fixedFront ukMeta entries entries ++ (List.replicate (keySize ukMeta + 4) 0 ++
    pre.flatMap fun e => externOf e.2), _, ?_, by simp only [List.append_assoc]; rfl⟩
  simp only [List.length_append, length_fixedFront hkeys.keys, List.length_replicate, length_lists,
    externPos]
  ring

/-! ## Reading it back -/

theorem slotPos_eq {i : Nat} (hw : keySize ukMeta < 2 ^ 15) (hi : i < 2 ^ 32)
    (hlength : SolidIndex.length d = keySize ukMeta) :
    FixedSolidIndex.slotPos d i = solidIndexHeadSize + (keySize ukMeta + 4) * i := by
  have hle : (keySize ukMeta + 4) * i < 2 ^ 16 * 2 ^ 32 :=
    Nat.mul_lt_mul_of_lt_of_lt (by omega) hi
  unfold FixedSolidIndex.slotPos
  rw [hlength]
  have hcast : ((solidIndexHeadSize + ((keySize ukMeta : Int) + 4) * i) : Int) =
      ((solidIndexHeadSize + (keySize ukMeta + 4) * i : Nat) : Int) := by
    push_cast
    ring
  rw [hcast, Int.emod_eq_of_lt (by omega) (by unfold solidIndexHeadSize; omega), Int.toNat_natCast]

theorem getRecordIdByIndex_single {i : Nat} {id : Nat}
    (hword : word d (((FixedSolidIndex.slotPos d i : Int) + SolidIndex.length d) % 2 ^ 64).toNat =
      .ok id) (hid : id < 2 ^ 24) : FixedSolidIndex.getRecordIdByIndex d i = .ok [id] := by
  rw [FixedSolidIndex.getRecordIdByIndex, hword, Exec.ok_bind,
    if_pos ((and_high_byte (by omega)).mpr hid)]
  rfl

theorem getRecordIdByIndex_short {i : Nat}
    (hword : word d (((FixedSolidIndex.slotPos d i : Int) + SolidIndex.length d) % 2 ^ 64).toNat =
      .ok (n * 2 ^ 24 + off)) (hn : 0 < n) (hshort : n < 0x7f) (hoff : off < 2 ^ 24) :
    FixedSolidIndex.getRecordIdByIndex d i = wordsAt d off n := by
  have hhigh := and_high_byte (x := n * 2 ^ 24 + off) (by omega)
  have htop := and_top_bit (x := n * 2 ^ 24 + off) (by omega)
  rw [FixedSolidIndex.getRecordIdByIndex, hword, Exec.ok_bind, if_neg (by rw [hhigh]; omega),
    if_pos (htop.mpr (by omega)), and_low_bytes, Nat.shiftRight_eq_div_pow]
  rw [show (n * 2 ^ 24 + off) % 2 ^ 24 = off by omega,
    show (n * 2 ^ 24 + off) / 2 ^ 24 = n by omega]

theorem getRecordIdByIndex_long {i : Nat}
    (hword : word d (((FixedSolidIndex.slotPos d i : Int) + SolidIndex.length d) % 2 ^ 64).toNat =
      .ok (2 ^ 31 + off)) (hoff : off < 2 ^ 24) (hcount : word d off = .ok n) :
    FixedSolidIndex.getRecordIdByIndex d i = wordsAt d (off + 4) n := by
  have hhigh := and_high_byte (x := 2 ^ 31 + off) (by omega)
  have htop := and_top_bit (x := 2 ^ 31 + off) (by omega)
  rw [FixedSolidIndex.getRecordIdByIndex, hword, Exec.ok_bind, if_neg (by rw [hhigh]; omega),
    if_neg (by rw [htop]; omega), and_low_bytes,
    show (2 ^ 31 + off) % 2 ^ 24 = off by omega, hcount, Exec.ok_bind]

theorem word_slot (hkeys : FixedEntries (keySize ukMeta) entries)
    (hw : keySize ukMeta < 2 ^ 15) (hentries : entries = pre ++ e :: post)
    (hd : d = (ofEntries ukMeta entries).createFixedSolidIndex)
    (hlength : SolidIndex.length d = keySize ukMeta)
    (hword : idWord e.2 (externPos (keySize ukMeta) entries.length + externSize pre) < 2 ^ 32) :
    word d (((FixedSolidIndex.slotPos d pre.length : Int) + SolidIndex.length d) % 2 ^ 64).toNat =
      .ok (idWord e.2 (externPos (keySize ukMeta) entries.length + externSize pre)) := by
  have hpre : ∀ x ∈ pre, x.1.length = keySize ukMeta := by
    intro x hx
    apply hkeys.keys
    simp [hentries, hx]
  have hcount : pre.length < 2 ^ 32 := by
    have hn := hkeys.keyCount
    rw [hentries, List.length_append] at hn
    omega
  have hle : (keySize ukMeta + 4) * pre.length < 2 ^ 16 * 2 ^ 32 :=
    Nat.mul_lt_mul_of_lt_of_lt (by omega) hcount
  have hpos : (((FixedSolidIndex.slotPos d pre.length : Int) + SolidIndex.length d) %
      2 ^ 64).toNat = solidIndexHeadSize + (keySize ukMeta + 4) * pre.length + keySize ukMeta := by
    rw [slotPos_eq hw hcount hlength, hlength, ← Int.natCast_add,
      Int.emod_eq_of_lt (by omega) (by unfold solidIndexHeadSize; omega), Int.toNat_natCast]
  obtain ⟨rest, hslot⟩ := createFixedSolidIndex_slot ukMeta hentries
  rw [← List.append_assoc] at hslot
  rw [hpos, hd, hslot]
  apply word_append _ hword
  rw [List.length_append, length_fixedFront hpre, hkeys.keys e (by simp [hentries])]

theorem getRecordIdByIndex_page (hkeys : FixedEntries (keySize ukMeta) entries)
    (hfits : FixedFits ukMeta entries) (hentries : entries = pre ++ e :: post)
    (hd : d = (ofEntries ukMeta entries).createFixedSolidIndex)
    (hlength : SolidIndex.length d = keySize ukMeta) :
    FixedSolidIndex.getRecordIdByIndex d pre.length = .ok e.2 := by
  have hmem : e ∈ entries := by simp [hentries]
  have hids : ∀ id ∈ e.2, id < 2 ^ 32 := by
    intro id hid
    have hlt := hkeys.ids e hmem id hid
    omega
  have hpos := List.length_pos_of_ne_nil (hkeys.nonempty e hmem)
  have hslot := word_slot hkeys hfits.length hentries hd hlength
  obtain ⟨front, rest, hfront, hextern⟩ := createFixedSolidIndex_extern hkeys hentries
  by_cases h1 : e.2.length = 1
  · obtain ⟨id, hid⟩ := List.length_eq_one_iff.mp h1
    have hlt := hkeys.ids e hmem id (by simp [hid])
    rw [hid] at hslot ⊢
    exact getRecordIdByIndex_single (hslot (by simp only [idWord]; omega)) hlt
  have hoff := hfits.offset pre e post hentries h1
  by_cases hshort : e.2.length < 0x7f
  · rw [externOf_short h1 hshort] at hextern
    rw [idWord_short h1 hshort hoff] at hslot
    rw [getRecordIdByIndex_short (hslot (by omega)) hpos hshort hoff, hd, hextern]
    exact wordsAt_append hfront hids rest
  · rw [externOf_long (by omega), List.append_assoc] at hextern
    rw [idWord_long (by omega) hoff] at hslot
    have hcount : word d (externPos (keySize ukMeta) entries.length + externSize pre) =
        .ok e.2.length := by
      rw [hd, hextern]
      exact word_append hfront (hkeys.count e hmem) _
    rw [getRecordIdByIndex_long (hslot (by omega)) hoff hcount, hd, hextern,
      ← List.append_assoc]
    exact wordsAt_append (by rw [List.length_append, hfront, LE.length_bytes]) hids rest

theorem fixedPage (hkeys : FixedEntries (keySize ukMeta) entries)
    (hfits : FixedFits ukMeta entries) :
    FixedPage (ofEntries ukMeta entries).createFixedSolidIndex (keySize ukMeta) entries := by
  have hhead : ∃ rest, (ofEntries ukMeta entries).createFixedSolidIndex =
      solidIndexHead (externPos (keySize ukMeta) entries.length + externSize entries)
        entries.length (typeOf ukMeta) 1 (keySize ukMeta) ++ rest := by
    rw [createFixedSolidIndex_eq, fixedFront, List.append_assoc]
    exact ⟨_, rfl⟩
  have hlength : SolidIndex.length (ofEntries ukMeta entries).createFixedSolidIndex =
      keySize ukMeta := by
    obtain ⟨rest, hrest⟩ := hhead
    rw [hrest, length_head _ _ _ _ _ _ hfits.length]
  constructor
  · obtain ⟨rest, hrest⟩ := hhead
    rw [hrest, getKeyCount_head _ _ _ _ _ _ hkeys.keyCount]
  · intro i e he
    obtain ⟨pre, post, hentries, rfl⟩ := List.exists_append_cons_of_getElem? he
    have hpre : ∀ x ∈ pre, x.1.length = keySize ukMeta := by
      intro x hx
      apply hkeys.keys
      simp [hentries, hx]
    have hcount : pre.length < 2 ^ 32 := by
      have hn := hkeys.keyCount
      rw [hentries, List.length_append] at hn
      omega
    obtain ⟨rest, hslot⟩ := createFixedSolidIndex_slot ukMeta hentries
    have hkey : FixedSolidIndex.getKey (ofEntries ukMeta entries).createFixedSolidIndex pre.length =
        .ok (e.1 ++ (LE.bytes 4 (idWord e.2
          (externPos (keySize ukMeta) entries.length + externSize pre)) ++ rest)) := by
      unfold FixedSolidIndex.getKey
      rw [slotPos_eq hfits.length hcount hlength, hslot]
      exact pointer_append (length_fixedFront hpre) _
    exact ⟨_, hkey, List.take_left' (hkeys.keys e (by simp [hentries]))⟩
  · intro i e he
    obtain ⟨pre, post, hentries, rfl⟩ := List.exists_append_cons_of_getElem? he
    exact getRecordIdByIndex_page hkeys hfits hentries rfl hlength

theorem length_createFixedSolidIndex (hkeys : FixedEntries (keySize ukMeta) entries) :
    (ofEntries ukMeta entries).createFixedSolidIndex.length =
      externPos (keySize ukMeta) entries.length + externSize entries := by
  rw [createFixedSolidIndex_eq, List.length_append, List.length_append, List.length_replicate,
    length_fixedFront hkeys.keys, length_lists, externPos]
  ring

/-! ## The page of the rows -/

variable {F : FloatOps} {columns : List UniqueKeyTypePair} {rows : List (Row × Nat)}
  {events : List (Key × Nat)}

/-- The page of the rows is read back as their keys, each with its record ids. -/
def FixedDecodes (F : FloatOps) (ukMeta : UnionKeyMeta) (rows : List (Row × Nat)) : Prop :=
  ∃ index d events entries, (create ukMeta >>= fun index => appendAll F index rows) = .ok index ∧
    index.createSolidIndexPage = .ok d ∧ (ofEntries ukMeta []).eventsOf rows = .ok events ∧
    Groups (keyValue (typeOf ukMeta) ukMeta) events entries ∧
    FixedPage d (keySize ukMeta) entries

/-- No key column is null, the keys of several columns compare as their values do, and the entries
    fit the page. -/
structure FixedRows (F : FloatOps) (ukMeta : UnionKeyMeta) (rows : List (Row × Nat))
    (events : List (Key × Nat)) : Prop where
  read : (ofEntries ukMeta []).eventsOf rows = .ok events
  orders : typeOf ukMeta = .T_UNION → OrdersAll F (typeOf ukMeta) ukMeta (events.map Prod.fst)
  fits : ∀ entries, Groups (keyValue (typeOf ukMeta) ukMeta) events entries →
    FixedFits ukMeta entries

/-- What is known of a key of the fixed layout. -/
structure FixedType (ukMeta : UnionKeyMeta) : Prop where
  new : create ukMeta = .ok (ofEntries ukMeta [])
  page : ∀ index : AppendingIndex, index.m_type = typeOf ukMeta → index.createSolidIndexPage = index.toString
  noBlob : typeOf ukMeta ≠ .T_BLOB
  fixed : isFixed ukMeta = true
  orders : typeOf ukMeta ≠ .T_UNION → (typeOf ukMeta).integer ∧
    keySize ukMeta = (typeOf ukMeta).columnTypeSize

theorem fixedType (hkey : FixedKey columns) :
    FixedType (UnionKeyMeta.createUnionKey columns) := by
  obtain ⟨c, rfl, hint⟩ | ⟨hlen, hfixed⟩ := hkey
  · have htype : typeOf (UnionKeyMeta.createUnionKey [c]) = c.type := rfl
    have hfix : isFixed (UnionKeyMeta.createUnionKey [c]) = c.type.fixed := rfl
    constructor
    · unfold create
      unfold ofEntries
      rw [htype]
      cases hc : c.type <;> rw [hc] at hint <;> first | rfl | cases hint
    · intro index hm
      unfold createSolidIndexPage
      rw [hm, htype]
      cases hc : c.type <;> rw [hc] at hint <;> first | rfl | cases hint
    · rw [htype]
      intro hblob
      rw [hblob] at hint
      cases hint
    · rw [hfix]
      cases hc : c.type <;> rw [hc] at hint <;> first | rfl | cases hint
    · intro _
      exact ⟨hint, rfl⟩
  · have htype : typeOf (UnionKeyMeta.createUnionKey columns) = .T_UNION := typeOf_union hlen
    constructor
    · unfold create ofEntries
      rw [htype]
      rfl
    · intro index hm
      unfold createSolidIndexPage
      rw [hm, htype]
    · rw [htype]
      decide
    · rw [isFixed_union hlen]
      exact hfixed
    · intro h
      exact absurd htype h

theorem fixedEntries (hkey : FixedKey columns) (hrows : Admitted rows)
    (hread : (ofEntries (UnionKeyMeta.createUnionKey columns) []).eventsOf rows = .ok events)
    (hg : Groups (keyValue (typeOf (UnionKeyMeta.createUnionKey columns))
      (UnionKeyMeta.createUnionKey columns)) events entries) :
    FixedEntries (keySize (UnionKeyMeta.createUnionKey columns)) entries := by
  have hlength := (length_eventsOf hread).2
  have hcount := hrows.count
  unfold maxRecordInBlock at hcount
  constructor
  · intro e he
    obtain ⟨x, hx, hek⟩ := (hg.keys e.1).mp ⟨e, he, rfl⟩
    obtain ⟨r, -, old, hold, -⟩ := mem_eventsOf hread hx
    rw [← hek]
    exact length_keyOf hkey rfl rfl hold
  · intro e he
    exact hg.ne_nil he
  · intro e he id hid
    obtain ⟨r, hr, -, -, heq⟩ := mem_eventsOf hread (hg.mem_values he hid)
    have hlt := hrows.ids r hr
    unfold maxRecordInBlock at hlt
    omega
  · intro e he
    have hle := hg.length_values_le he
    omega
  · have hle := hg.length_le
    omega

/-- The appends group the rows by their keys, and the page is made of these groups. -/
theorem fixedIndex_page (hkey : FixedKey columns) (hrows : Admitted rows)
    (h : FixedRows F (UnionKeyMeta.createUnionKey columns) rows events) :
    OrdersAll F (typeOf (UnionKeyMeta.createUnionKey columns))
        (UnionKeyMeta.createUnionKey columns) (events.map Prod.fst) ∧
      ∃ entries, (create (UnionKeyMeta.createUnionKey columns) >>=
          fun index => appendAll F index rows) =
          .ok (ofEntries (UnionKeyMeta.createUnionKey columns) entries) ∧
        (ofEntries (UnionKeyMeta.createUnionKey columns) entries).createSolidIndexPage =
          .ok (ofEntries (UnionKeyMeta.createUnionKey columns) entries).createFixedSolidIndex ∧
        Groups (keyValue (typeOf (UnionKeyMeta.createUnionKey columns))
          (UnionKeyMeta.createUnionKey columns)) events entries ∧
        FixedEntries (keySize (UnionKeyMeta.createUnionKey columns)) entries ∧
        FixedFits (UnionKeyMeta.createUnionKey columns) entries := by
  have htype := fixedType hkey
  have hord : OrdersAll F (typeOf (UnionKeyMeta.createUnionKey columns))
      (UnionKeyMeta.createUnionKey columns) (events.map Prod.fst) := by
    by_cases hunion : typeOf (UnionKeyMeta.createUnionKey columns) = .T_UNION
    · exact h.orders hunion
    · obtain ⟨hint, hsize⟩ := htype.orders hunion
      have hlength : ∀ k ∈ events.map Prod.fst, k.length =
          (typeOf (UnionKeyMeta.createUnionKey columns)).columnTypeSize := by
        intro k hk
        obtain ⟨e, he, rfl⟩ := List.mem_map.mp hk
        obtain ⟨r, -, old, hold, -⟩ := mem_eventsOf h.read he
        rw [← hsize]
        exact length_keyOf hkey rfl rfl hold
      exact fun a ha b hb => orders_integer hint (hlength a ha) (hlength b hb)
  obtain ⟨entries, hindex, hg⟩ := appendAll_eq htype.new h.read hord
  have hkeys := fixedEntries hkey hrows h.read hg
  have hfits := h.fits entries hg
  have hroom : (ofEntries (UnionKeyMeta.createUnionKey columns) entries).createFixedSolidIndex.length
      ≤ bufferSize (ofEntries (UnionKeyMeta.createUnionKey columns) entries).toSolidIndexSize := by
    rw [length_createFixedSolidIndex hkeys]
    exact hfits.room
  refine ⟨hord, entries, hindex, ?_, hg, hkeys, hfits⟩
  rw [htype.page _ rfl]
  exact toString_ofEntries (hg.nonempty (hrows.events_ne_nil h.read)) htype.noBlob
    (if_pos htype.fixed) hroom

/-- The rows of a block, put into an index with fixed keys, are read back from its page. -/
theorem fixedIndex_decodes (hkey : FixedKey columns) (hrows : Admitted rows)
    (h : FixedRows F (UnionKeyMeta.createUnionKey columns) rows events) :
    FixedDecodes F (UnionKeyMeta.createUnionKey columns) rows := by
  obtain ⟨-, entries, hindex, hpage, hg, hkeys, hfits⟩ := fixedIndex_page hkey hrows h
  exact ⟨_, _, events, entries, hindex, hpage, h.read, hg, fixedPage hkeys hfits⟩

def sameKey : List (Row × Nat) :=
  [(rowOf fun _ => [255, 255, 255, 255], 0), (rowOf fun _ => [255, 255, 255, 255], 1)]

theorem fixedIndex_decodes_same_key :
    FixedDecodes noFloats (UnionKeyMeta.createUnionKey [⟨.T_INT32, 0⟩]) sameKey := by
  have hrows : Admitted sameKey := by
    refine ⟨by simp [sameKey], by simp [sameKey, maxRecordInBlock], fun x hx => ?_⟩
    simp only [sameKey, List.mem_cons, List.not_mem_nil, or_false] at hx
    obtain rfl | rfl := hx <;> simp [maxRecordInBlock]
  have hone : Groups (keyValue .T_INT32 (UnionKeyMeta.createUnionKey [⟨.T_INT32, 0⟩]))
      [([255, 255, 255, 255], 0), ([255, 255, 255, 255], 1)]
      [(([255, 255, 255, 255] : Key), [0, 1])] := by
    refine ⟨List.pairwise_singleton _ _, fun g hmem => ?_, by simp⟩
    rw [List.mem_singleton.mp hmem]
    rfl
  have hfits : FixedFits (UnionKeyMeta.createUnionKey [⟨.T_INT32, 0⟩])
      [([255, 255, 255, 255], [0, 1])] := by
    refine ⟨by decide, fun pre e post heq _ => ?_, by decide⟩
    cases pre with
    | nil =>
      decide
    | cons x pre => simp at heq
  have hcondition : FixedRows noFloats (UnionKeyMeta.createUnionKey [⟨.T_INT32, 0⟩]) sameKey
      [([255, 255, 255, 255], 0), ([255, 255, 255, 255], 1)] :=
    ⟨by rfl, fun h => absurd h (by decide), fun entries hg => by rw [hg.unique hone]; exact hfits⟩
  exact fixedIndex_decodes (Or.inl ⟨_, rfl, rfl⟩) hrows hcondition

def farKeys : List (Row × Nat) :=
  [(rowOf fun i => if i = 0 then [0, 0, 0, 0] else [0], 0),
    (rowOf fun i => if i = 0 then [1, 0, 0, 128] else [0], 1)]

def farPage : List UInt8 :=
  [39, 0, 0, 0, 2, 0, 0, 0, 0, 1, 5, 0, 1, 0, 0, 128, 0, 1, 0, 0, 0, 0, 0, 0, 0, 0, 0, 0, 0, 0, 0,
    0, 0, 0, 0, 0, 0, 0, 0]

/-- The greater one is in front: the difference of the first columns does not fit an `int`. -/
theorem fixedIndex_out_of_order :
    FixedKey [⟨.T_UINT32, 0⟩, ⟨.T_UINT8, 1⟩] ∧ Admitted farKeys ∧
      ¬ FixedDecodes noFloats (UnionKeyMeta.createUnionKey [⟨.T_UINT32, 0⟩, ⟨.T_UINT8, 1⟩])
        farKeys := by
  refine ⟨Or.inr ⟨by decide, by decide⟩, ⟨by simp [farKeys], by simp [farKeys, maxRecordInBlock],
    ?_⟩, ?_⟩
  · intro x hx
    simp only [farKeys, List.mem_cons, List.not_mem_nil, or_false] at hx
    obtain rfl | rfl := hx <;> simp [maxRecordInBlock]
  rintro ⟨index, d, events, entries, hindex, hd, -, hg, hpage⟩
  have hwritten : (create (UnionKeyMeta.createUnionKey [⟨.T_UINT32, 0⟩, ⟨.T_UINT8, 1⟩]) >>=
      fun index => appendAll noFloats index farKeys) >>= createSolidIndexPage = .ok farPage := by
    decide +kernel
  rw [hindex, Exec.ok_bind, hd] at hwritten
  cases hwritten
  -- what is read of the page, first the greater key
  have hfirst : FixedSolidIndex.getKey farPage 0 = .ok (farPage.drop 12) := by decide
  have hcount := hpage.keyCount
  match entries, hcount with
  | [e, e'], _ =>
    obtain ⟨p, hp, he⟩ := hpage.key 0 e rfl
    obtain ⟨p', hp', he'⟩ := hpage.key 1 e' rfl
    cases hp
    cases hp'
    have hlt := (List.pairwise_cons.mp hg.sorted).1 e' List.mem_cons_self
    rw [← he, ← he'] at hlt
    have habsurd : ([[2147483649], [0]] : List (List Int)) < [[0], [0]] := by
      exact hlt
    simp [List.cons_lt_cons_iff] at habsurd

end AppendingIndex

end DBStream.Native
