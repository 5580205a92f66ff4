import DBStream.Spec.FixedIndexCorrect
import DBStream.Spec.VarIndexCorrect

/-!
# The room of an index page

`toSolidIndexSize` is a formula over three counters, and the page is written key by key.  After any
history the counters are those of the nodes.  The formula covers a variable page, and one of the
fixed layout unless too many keys have a list that is stored with its count.
-/

namespace DBStream.Native

namespace AppendingIndex

variable {F : FloatOps} {t : ColumnType} {ukMeta : UnionKeyMeta} {key : Key} {r : Row} {old new : Bool}
  {id k : Nat} {nodes nodes' : List (Key × List Nat)} {index index' : AppendingIndex}

/-! ## One key -/

private theorem findGreaterOrEqual_append {compare : Key → Key → Exec Int}
    {before behind : List (Key × List Nat)}
    (h : findGreaterOrEqual compare key nodes = .ok (before, behind)) : before ++ behind = nodes := by
  induction nodes generalizing before behind with
  | nil =>
    cases h
    rfl
  | cons node nodes ih =>
    obtain ⟨c, -, h⟩ := Exec.of_bind h
    split at h
    · obtain ⟨⟨before', behind'⟩, hrest, hret⟩ := Exec.of_bind h
      cases hret
      rw [List.cons_append, ih hrest]
    · cases h
      rfl

theorem appendNode_cases (h : appendNode F t ukMeta key id nodes = .ok (nodes', new)) :
    (new = true ∧ ∃ l r, nodes = l ++ r ∧ nodes' = l ++ (key, [id]) :: r) ∨
    (new = false ∧ ∃ l n r, nodes = l ++ n :: r ∧ nodes' = l ++ (n.1, n.2 ++ [id]) :: r) := by
  obtain ⟨⟨before, behind⟩, hfind, h⟩ := Exec.of_bind h
  have hsplit := findGreaterOrEqual_append hfind
  cases behind with
  | nil =>
    cases h
    exact .inl ⟨rfl, before, [], hsplit.symm, rfl⟩
  | cons node rest =>
    obtain ⟨greater, -, h⟩ := Exec.of_bind h
    cases greater with
    | true =>
      obtain ⟨c, -, h⟩ := Exec.of_bind h
      split at h
      · cases h
      · cases h
        exact .inl ⟨rfl, before, node :: rest, hsplit.symm, rfl⟩
    | false =>
      simp only [Bool.false_eq_true, if_false] at h
      split at h
      · cases h
        exact .inr ⟨rfl, before, node, rest, hsplit.symm, rfl⟩
      · cases h

/-! ## The counters -/

/-- The metadata of a key of a table: it has columns, none of which is itself a key, and the size is
a `uint16_t`. -/
structure KeyColumns (ukMeta : UnionKeyMeta) : Prop where
  nonempty : ukMeta.columnInfo ≠ []
  types : ∀ c ∈ ukMeta.columnInfo, c.type ≠ .T_UNION
  size : ukMeta.size < 2 ^ 16

/-- The size a variable union key carries is not less than that of its columns without contents. -/
def Sized (t : ColumnType) (ukMeta : UnionKeyMeta) (key : Key) : Prop :=
  t = .T_UNION → ukMeta.fixed = false → ukMeta.size ≤ LE.nat (key.take 2)

/-- The counters of an index are those of its nodes, up to the ids that are not counted yet. -/
structure Counted (ukMeta : UnionKeyMeta) (uncounted : Nat) (index : AppendingIndex) : Prop where
  type : index.m_type = typeOf ukMeta
  keyMeta : index.m_ukMeta = ukMeta
  keyCount : index.m_keyCount = index.m_index.length
  allCount : (index.m_index.map fun n => n.2.length).sum = index.m_allCount + uncounted
  varSize : index.m_varSize = (index.m_index.map fun n => index.varSizeOf n.1).sum
  nonempty : ∀ n ∈ index.m_index, n.2 ≠ []
  sized : ∀ n ∈ index.m_index, Sized (typeOf ukMeta) ukMeta n.1

private theorem length_contents_le {columns : List UniqueKeyTypePair} {ds : List (List UInt8)}
    (h : columns.mapM (UnionKey.initColumn r old) = .ok ds) :
    ∃ n, n ≤ ds.flatten.length ∧ n % 2 ^ 16 = ((columns.filter fun c => !c.type.fixed).map fun c =>
      (r.readVar old c).length).sum % 2 ^ 16 := by
  induction columns generalizing ds with
  | nil => exact ⟨0, Nat.zero_le _, rfl⟩
  | cons c columns ih =>
    rw [List.mapM_cons] at h
    obtain ⟨d, hd, h⟩ := Exec.of_bind h
    obtain ⟨ds', hds, hret⟩ := Exec.of_bind h
    cases hret
    obtain ⟨n, hle, hmod⟩ := ih hds
    rw [List.flatten_cons, List.length_append]
    by_cases hfixed : c.type.fixed = true
    · rw [List.filter_cons_of_neg (by simp [hfixed])]
      exact ⟨n, by omega, hmod⟩
    · rw [List.filter_cons_of_pos (by simp [hfixed]), List.map_cons, List.sum_cons]
      rw [UnionKey.initColumn, if_neg hfixed] at hd
      cases hd
      refine ⟨(r.readVar old c).length % 2 ^ 16 + n, ?_, by omega⟩
      rw [List.length_append, LE.length_bytes, List.length_take]
      omega

theorem sized_ofRow (hsize : ukMeta.size < 2 ^ 16) (h : UnionKey.ofRow ukMeta r old = .ok key) :
    Sized .T_UNION ukMeta key := by
  intro _ hfixed
  obtain ⟨ds, hds, hret⟩ := Exec.of_bind h
  obtain ⟨n, hle, hmod⟩ := length_contents_le hds
  have hmem : UnionKey.memSize ukMeta r old = (ukMeta.size +
      ((ukMeta.columnInfo.filter fun c => !c.type.fixed).map fun c =>
        (r.readVar old c).length).sum) % 2 ^ 16 := by
    rw [UnionKey.memSize, hfixed]
    rfl
  have hroom : (if old = true then 0 else 2) ≤ 2 := by split <;> omega
  simp only [hfixed, Bool.false_eq_true, if_false, false_or] at hret
  generalize (if old = true then 0 else 2) = room at hret hroom
  split at hret
  · next hfits =>
    cases hret
    rw [List.length_append, LE.length_bytes] at hfits
    rw [List.take_left' (LE.length_bytes 2 _), LE.nat_bytes_of_lt (by omega)]
    omega
  · cases hret

private theorem sized_keyOf (hmeta : KeyColumns ukMeta) (h : Counted ukMeta k index)
    (hkey : index.keyOf r old = .ok key) : Sized (typeOf ukMeta) ukMeta key := by
  intro htype hfixed
  rw [keyOf, h.type, h.keyMeta, htype] at hkey
  exact sized_ofRow hmeta.size hkey rfl hfixed

theorem create_counted (h : create ukMeta = .ok index) : Counted ukMeta 0 index := by
  have hnew : index = { m_type := typeOf ukMeta, m_ukMeta := ukMeta } := by
    unfold create at h
    split at h
    · cases h
    · cases h
    · exact (Except.ok.inj h).symm
  rw [hnew]
  exact ⟨rfl, rfl, rfl, rfl, rfl, by simp, by simp⟩

/-- The counters follow one more key. -/
theorem Counted.appendKey (hmeta : KeyColumns ukMeta) (h : Counted ukMeta k index)
    (happ : index.appendKey F r old id = .ok index') :
    Counted ukMeta (k + 1) index' ∧ index'.m_allCount = index.m_allCount := by
  obtain ⟨key, hkey, happ⟩ := Exec.of_bind happ
  obtain ⟨⟨nodes, new⟩, hnode, happ⟩ := Exec.of_bind happ
  have hsized := sized_keyOf hmeta h hkey
  have hall := h.allCount
  have hvar := h.varSize
  have hcount := h.keyCount
  have hnonempty := h.nonempty
  have hnodes := h.sized
  rcases appendNode_cases hnode with ⟨rfl, l, rest, hold, rfl⟩ | ⟨rfl, l, n, rest, hold, rfl⟩
  · -- a node with one id
    cases happ
    rw [hold] at hall hvar hcount hnonempty hnodes
    refine ⟨⟨h.type, h.keyMeta, ?_, ?_, ?_, ?_, ?_⟩, rfl⟩
    · simp [hcount]
      omega
    · simp at hall ⊢
      omega
    · simp only [hvar, List.map_append, List.sum_append, List.map_cons, List.sum_cons]
      simp only [varSizeOf]
      omega
    · rw [List.forall_mem_append] at hnonempty
      rw [List.forall_mem_append, List.forall_mem_cons]
      exact ⟨hnonempty.1, List.cons_ne_nil _ _, hnonempty.2⟩
    · rw [List.forall_mem_append] at hnodes
      rw [List.forall_mem_append, List.forall_mem_cons]
      exact ⟨hnodes.1, hsized, hnodes.2⟩
  · -- one id more
    cases happ
    rw [hold] at hall hvar hcount hnonempty hnodes
    refine ⟨⟨h.type, h.keyMeta, ?_, ?_, ?_, ?_, ?_⟩, rfl⟩
    · simpa using hcount
    · simp at hall ⊢
      omega
    · simpa [varSizeOf] using hvar
    · rw [List.forall_mem_append, List.forall_mem_cons] at hnonempty ⊢
      exact ⟨hnonempty.1, by simp, hnonempty.2.2⟩
    · rw [List.forall_mem_append, List.forall_mem_cons] at hnodes ⊢
      exact ⟨hnodes.1, hnodes.2.1, hnodes.2.2⟩

theorem Counted.append (hmeta : KeyColumns ukMeta) (h : Counted ukMeta 0 index)
    (happ : index.append F r id = .ok index') : Counted ukMeta 0 index' := by
  unfold AppendingIndex.append at happ
  split at happ
  · obtain ⟨i₁, h₁, happ⟩ := Exec.of_bind happ
    obtain ⟨i₂, h₂, hret⟩ := Exec.of_bind happ
    cases hret
    obtain ⟨hc₁, ha₁⟩ := h.appendKey hmeta h₁
    obtain ⟨hc₂, ha₂⟩ := hc₁.appendKey hmeta h₂
    exact ⟨hc₂.type, hc₂.keyMeta, hc₂.keyCount, hc₂.allCount, hc₂.varSize, hc₂.nonempty, hc₂.sized⟩
  · obtain ⟨i₁, h₁, hret⟩ := Exec.of_bind happ
    cases hret
    obtain ⟨hc₁, ha₁⟩ := h.appendKey hmeta h₁
    exact ⟨hc₁.type, hc₁.keyMeta, hc₁.keyCount, hc₁.allCount, hc₁.varSize, hc₁.nonempty, hc₁.sized⟩

theorem appendAll_counted (hmeta : KeyColumns ukMeta) {rows : List (Row × Nat)}
    (h : Counted ukMeta 0 index) (happ : appendAll F index rows = .ok index') :
    Counted ukMeta 0 index' := by
  induction rows generalizing index with
  | nil =>
    cases happ
    exact h
  | cons x rows ih =>
    obtain ⟨i₁, h₁, hrest⟩ := Exec.of_bind happ
    exact ih (h.append hmeta h₁) hrest

/-! ## The two sizes -/

/-- The bytes of a key in the variable layout, behind its length. -/
def storedLength (index : AppendingIndex) (key : Key) : Nat :=
  if index.m_type = .T_UNION then LE.nat (key.take 2) else key.length

/-- The number of bytes that `createFixedSolidIndex` or `createVarSolidIndex` writes. -/
def writtenSize (index : AppendingIndex) : Nat :=
  if isFixed index.m_ukMeta then
    externPos (keySize index.m_ukMeta) index.m_keyCount + externSize index.m_index
  else
    solidIndexHeadSize + 4 * (index.m_keyCount + 1) +
      (index.m_index.map fun n => storedLength index n.1 + 6 + 4 * n.2.length).sum

/-- The bytes of the key are there: a union key is as long as it says. -/
def Whole (index : AppendingIndex) (key : Key) : Prop :=
  index.m_type = .T_UNION → 2 + LE.nat (key.take 2) ≤ key.length

private theorem length_varEntry {n : Key × List Nat} (h : Whole index n.1) :
    (varEntry index.m_type n).length = storedLength index n.1 + 6 + 4 * n.2.length := by
  have hwords := SolidIndex.length_words n.2
  unfold varEntry varKey storedLength
  by_cases hunion : index.m_type = .T_UNION
  · have hlen := h hunion
    rw [if_pos hunion, if_pos hunion, List.length_append, List.length_append, List.length_take,
      LE.length_bytes, Nat.min_eq_left hlen, hwords]
    omega
  · rw [if_neg hunion, if_neg hunion, List.length_append, List.length_append, List.length_append,
      LE.length_bytes, LE.length_bytes, hwords]
    omega

/-- Both writers put their last offset into the head. -/
theorem sizeField_eq (index : AppendingIndex)
    (h : isFixed index.m_ukMeta = false → ∀ n ∈ index.m_index, Whole index n.1) :
    (if isFixed index.m_ukMeta then index.createFixedSolidIndex
      else index.createVarSolidIndex).take 4 = LE.bytes 4 (writtenSize index) := by
  cases hfixed : isFixed index.m_ukMeta with
  | true =>
    rw [if_pos rfl, createFixedSolidIndex, length_lists, writtenSize, if_pos hfixed, solidIndexHead,
      List.append_assoc]
    exact List.take_left' (LE.length_bytes 4 _)
  | false =>
    have hentries : (index.m_index.map fun n => (varEntry index.m_type n).length) =
        index.m_index.map fun n => storedLength index n.1 + 6 + 4 * n.2.length :=
      List.map_congr_left fun n hn => length_varEntry (h hfixed n hn)
    rw [if_neg Bool.false_ne_true, createVarSolidIndex, length_entries, entriesSize, hentries,
      writtenSize, hfixed, if_neg Bool.false_ne_true, solidIndexHead, List.append_assoc]
    exact List.take_left' (LE.length_bytes 4 _)

/-- What the counters of an index call for: `toSolidIndexSize` without its 32 bits. -/
def calledFor (index : AppendingIndex) : Nat :=
  if isFixed index.m_ukMeta then
    solidIndexHeadSize + (keySize index.m_ukMeta + 4) * (1 + index.m_keyCount) +
      4 * index.m_allCount + (index.m_allCount - index.m_keyCount) / 0x7f * 4
  else
    solidIndexHeadSize + (keySize index.m_ukMeta + 2 * 4) * (1 + index.m_keyCount) +
      (2 + 4) * index.m_allCount + index.m_varSize

theorem toSolidIndexSize_eq (index : AppendingIndex) :
    index.toSolidIndexSize = calledFor index % 2 ^ 32 := rfl

def keysWith (p : Nat → Bool) (nodes : List (Key × List Nat)) : Nat :=
  nodes.countP fun n => p n.2.length

/-- The page is not overrun.  An index without keys writes none. -/
def NotOverrun (index : AppendingIndex) : Prop :=
  index.m_index ≠ [] → writtenSize index ≤ index.toSolidIndexSize

/-- The page fits 32 bits, and of a fixed one not more lists have their count in front than keys have
no list, but for one in 127 ids of the others. -/
def Covered (index : AppendingIndex) : Prop :=
  index.m_index ≠ [] → calledFor index < 2 ^ 32 ∧
    (isFixed index.m_ukMeta = true → keysWith (0x7f ≤ ·) index.m_index ≤
      keysWith (· = 1) index.m_index + (index.m_allCount - index.m_keyCount) / 0x7f)

theorem length_externOf (ids : List Nat) : (externOf ids).length + (if ids.length = 1 then 4 else 0) =
    4 * ids.length + if 0x7f ≤ ids.length then 4 else 0 := by
  by_cases h1 : ids.length = 1
  · obtain ⟨id, rfl⟩ := List.length_eq_one_iff.mp h1
    simp [externOf]
  · by_cases hshort : ids.length < 0x7f
    · have hle : ¬0x7f ≤ ids.length := by omega
      simp [externOf_short h1 hshort, SolidIndex.length_words, h1, hle]
    · have hle : 0x7f ≤ ids.length := by omega
      simp [externOf_long hle, SolidIndex.length_words, h1, hle]
      omega

/-- The lists of ids: four bytes an id, four more where the count is stored, and none for an only
id. -/
theorem externSize_eq (nodes : List (Key × List Nat)) :
    externSize nodes + 4 * keysWith (· = 1) nodes =
      4 * (nodes.map fun n => n.2.length).sum + 4 * keysWith (0x7f ≤ ·) nodes := by
  induction nodes with
  | nil => rfl
  | cons n nodes ih =>
    have hlen := length_externOf n.2
    simp only [externSize, keysWith, List.map_cons, List.sum_cons, List.countP_cons,
      decide_eq_true_eq] at ih ⊢
    split at hlen <;> split at hlen <;> simp [*] <;> omega

theorem variable_kind (hmeta : KeyColumns ukMeta) (h : isFixed ukMeta = false) :
    (typeOf ukMeta ∈ [ColumnType.T_STRING, .T_BINARY, .T_TEXT] ∧ keySize ukMeta = 4) ∨
      (typeOf ukMeta = .T_UNION ∧ ukMeta.fixed = false ∧ keySize ukMeta = ukMeta.size) := by
  have hnonempty := hmeta.nonempty
  have htypes := hmeta.types
  unfold isFixed at h
  unfold typeOf keySize
  match hcolumns : ukMeta.columnInfo with
  | [] => exact absurd hcolumns hnonempty
  | [c] =>
    cases htype : c.type <;> simp_all [ColumnType.fixed, ColumnType.columnTypeSize]
  | c :: c' :: cs =>
    rw [hcolumns] at h
    exact .inr ⟨rfl, h, rfl⟩

/-- The contents of the variable keys: what `m_varSize` counts, and for union keys the size of the
metadata for each. -/
theorem sum_storedLength (hmeta : KeyColumns ukMeta) (h : Counted ukMeta 0 index)
    (hvar : isFixed ukMeta = false) :
    ∃ w, (index.m_index.map fun n => storedLength index n.1).sum =
        index.m_varSize + w * index.m_keyCount ∧
      (w = 0 ∧ keySize ukMeta = 4 ∨ w = keySize ukMeta) := by
  rw [h.varSize, h.keyCount]
  have hsized := h.sized
  rcases variable_kind hmeta hvar with ⟨htype, hsize⟩ | ⟨htype, hfixed, hsize⟩
  · refine ⟨0, ?_, .inl ⟨rfl, hsize⟩⟩
    rw [Nat.zero_mul, Nat.add_zero]
    refine congrArg List.sum (List.map_congr_left fun n _ => ?_)
    rw [storedLength, varSizeOf, h.type]
    simp only [List.mem_cons, List.not_mem_nil, or_false] at htype
    rcases htype with htype | htype | htype <;> simp [htype]
  · refine ⟨ukMeta.size, ?_, .inr hsize.symm⟩
    have hstored : ∀ n ∈ index.m_index,
        storedLength index n.1 = index.varSizeOf n.1 + ukMeta.size := by
      intro n hn
      have hle := hsized n hn htype hfixed
      rw [storedLength, varSizeOf, h.type, htype, h.keyMeta, hfixed]
      simp only [if_true, Bool.false_eq_true, if_false]
      omega
    rw [List.map_congr_left hstored]
    induction index.m_index with
    | nil => rfl
    | cons n nodes ih =>
      simp only [List.map_cons, List.sum_cons, List.length_cons, Nat.mul_add, ih]
      omega

theorem Counted.keyCount_le (h : Counted ukMeta 0 index) : index.m_keyCount ≤ index.m_allCount := by
  have hone := List.length_le_sum_of_one_le (index.m_index.map fun n => n.2.length) (by
    intro k hk
    obtain ⟨n, hn, rfl⟩ := List.mem_map.mp hk
    exact List.length_pos_of_ne_nil (h.nonempty n hn))
  rw [List.length_map, h.allCount] at hone
  rw [h.keyCount]
  omega

/-- A page of which the formula holds modulo `2 ^ 32` is at least half of what the formula gives, so
nothing was cut. -/
private theorem le_mod_iff {written size : Nat} (h : size ≤ 2 * written) :
    written ≤ size % 2 ^ 32 ↔ size < 2 ^ 32 ∧ written ≤ size := by
  omega

/-- The page is not overrun if and only if the counters cover what is written. -/
theorem notOverrun_iff (hmeta : KeyColumns ukMeta) (h : Counted ukMeta 0 index) :
    NotOverrun index ↔ Covered index := by
  have hle := h.keyCount_le
  have hall := h.allCount
  have hcount := h.keyCount
  refine forall_congr' fun hne => ?_
  have hpos := List.length_pos_of_ne_nil hne
  rw [toSolidIndexSize_eq]
  cases hfixed : isFixed ukMeta with
  | true =>
    -- at most every key has an only id
    have hextern := externSize_eq index.m_index
    have hsingle : keysWith (· = 1) index.m_index ≤ index.m_index.length := List.countP_le_length
    have hslots : 4 * (index.m_keyCount + 1) ≤ (keySize ukMeta + 4) * (index.m_keyCount + 1) :=
      Nat.mul_le_mul_right _ (by omega)
    simp only [writtenSize, calledFor, h.keyMeta, hfixed, if_true, externPos, forall_const,
      Nat.add_comm 1 index.m_keyCount]
    rw [le_mod_iff (by omega)]
    refine and_congr_right fun _ => ?_
    omega
  | false =>
    obtain ⟨w, hsum, hw⟩ := sum_storedLength hmeta h hfixed
    have hentries : (index.m_index.map fun n => storedLength index n.1 + 6 + 4 * n.2.length).sum =
        (index.m_index.map fun n => storedLength index n.1).sum + 6 * index.m_keyCount +
          4 * index.m_allCount := by
      rw [hcount, ← Nat.add_zero index.m_allCount, ← hall]
      induction index.m_index with
      | nil => rfl
      | cons n nodes ih =>
        simp only [List.map_cons, List.sum_cons, List.length_cons, ih]
        omega
    have hroom : (keySize ukMeta + 2 * 4) * (1 + index.m_keyCount) =
        keySize ukMeta + keySize ukMeta * index.m_keyCount + 8 + 8 * index.m_keyCount := by ring
    have hfour : keySize ukMeta = 4 → keySize ukMeta * index.m_keyCount = 4 * index.m_keyCount :=
      fun h => by rw [h]
    have hone : keySize ukMeta ≤ keySize ukMeta * index.m_keyCount :=
      Nat.le_mul_of_pos_right _ (by omega)
    simp only [writtenSize, calledFor, h.keyMeta, hfixed, Bool.false_eq_true, if_false, hentries,
      hsum, hroom, false_implies, and_true]
    rcases hw with ⟨rfl, hw⟩ | rfl
    · have hfour := hfour hw
      omega
    · rw [le_mod_iff (by omega)]
      omega

/-- After any history of appends the page is not overrun exactly if it fits 32 bits and, in the fixed
layout, not too many keys have 127 ids or more. -/
theorem page_not_overrun_iff (hmeta : KeyColumns ukMeta) (F : FloatOps) (rows : List (Row × Nat)) :
    ∀ index, (create ukMeta >>= fun index => appendAll F index rows) = .ok index →
      (NotOverrun index ↔ Covered index) := by
  intro index hrun
  obtain ⟨index₀, hnew, happ⟩ := Exec.of_bind hrun
  exact notOverrun_iff hmeta (appendAll_counted hmeta (create_counted hnew) happ)

def threeRows : List (Row × Nat) :=
  [(rowOf fun _ => [5, 0, 0, 0], 0), (rowOf fun _ => [9, 0, 0, 0], 1),
    (rowOf fun _ => [5, 0, 0, 0], 2)]

def threeRowsIndex : AppendingIndex :=
  ofEntries (UnionKeyMeta.createUnionKey [⟨.T_UINT32, 0⟩]) [([5, 0, 0, 0], [0, 2]), ([9, 0, 0, 0], [1])]

theorem page_not_overrun_three : NotOverrun threeRowsIndex ↔ Covered threeRowsIndex := by
  have hmeta : KeyColumns (UnionKeyMeta.createUnionKey [⟨.T_UINT32, 0⟩]) :=
    ⟨by decide, by decide, by decide⟩
  exact page_not_overrun_iff hmeta noFloats threeRows threeRowsIndex (by decide)

theorem appendAll_append (rows rows' : List (Row × Nat)) : appendAll F index (rows ++ rows') =
    appendAll F index rows >>= fun index => appendAll F index rows' :=
  List.foldlM_append

def manyRows : List (Row × Nat) :=
  (List.range 127).map fun id => (rowOf fun _ => [0, 0, 0, 0], id)

/-- The count of the ids is written, and nothing is reserved for it. -/
theorem page_overrun : ∃ index,
    (create (UnionKeyMeta.createUnionKey [⟨.T_UINT32, 0⟩]) >>=
      fun index => appendAll noFloats index manyRows) = .ok index ∧
    writtenSize index = 540 ∧ index.toSolidIndexSize = 536 ∧ ¬ NotOverrun index := by
  let withIds (ids : List Nat) : AppendingIndex :=
    ofEntries (UnionKeyMeta.createUnionKey [⟨.T_UINT32, 0⟩]) [([0, 0, 0, 0], ids)]
  have hfirst : (create (UnionKeyMeta.createUnionKey [⟨.T_UINT32, 0⟩]) >>=
      fun index => appendAll noFloats index (manyRows.take 64)) = .ok (withIds (List.range 64)) := by
    decide +kernel
  have hrest : appendAll noFloats (withIds (List.range 64)) (manyRows.drop 64) =
      .ok (withIds (List.range 127)) := by
    decide +kernel
  have hwritten : writtenSize (withIds (List.range 127)) = 540 := by decide +kernel
  have hsize : (withIds (List.range 127)).toSolidIndexSize = 536 := by decide +kernel
  refine ⟨withIds (List.range 127), ?_, hwritten, hsize, fun h => ?_⟩
  · obtain ⟨index, hnew, hfirst⟩ := Exec.of_bind hfirst
    rw [hnew, Exec.ok_bind, ← List.take_append_drop 64 manyRows, appendAll_append, hfirst,
      Exec.ok_bind, hrest]
  · have hle := h (List.cons_ne_nil _ _)
    omega

end AppendingIndex

end DBStream.Native
