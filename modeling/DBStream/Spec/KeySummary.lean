import DBStream.Spec.KeyDrops

/-!
# Summaries of keys

`size`, `fixed` and `varColumnCount` of a key, which `createUnionKey` computes of the types of its
columns and `columnUpdate` brings up to date when a type changes.  `columnUpdate_exact` says that it does
when the key stays fixed or stays variable: for a key that changes from one to the other it counts two
bytes that `createUnionKey` does not count.  `dropColumn` of a key keeps the three as they are.
-/

namespace DBStream.Native.Meta

/-- The bytes that `createUnionKey` counts for a column. -/
def keyWidth (type : ColumnType) : Nat := if type.info.fixed then type.info.columnTypeSize else 2

/-- A key has the summary that `createUnionKey` computes for columns of these types. -/
structure Summarized (key : UnionKeyMeta) (types : List ColumnType) : Prop where
  size : key.size = (types.map keyWidth).sum % 2 ^ 16
  fixed : key.fixed = types.all fun t => t.info.fixed
  varColumnCount : key.varColumnCount = (types.countP fun t => !t.info.fixed) % 2 ^ 8

/-- A key has the summary of the types that its pairs name. -/
structure SelfExact (key : UnionKeyMeta) : Prop where
  count : key.columnInfo.length < 256
  summary : ∃ types, key.columnInfo.map UniqueKeyTypePair.type = types.map ColumnType.code ∧
    Summarized key types

theorem summarized_keyOn (keyId : Nat) (keyType : KeyType) (types : List ColumnType)
    (columnIds : List Nat) : Summarized (keyOn keyId keyType types columnIds) types := ⟨rfl, rfl, rfl⟩

theorem ColumnType.code_injective {a b : ColumnType} (h : a.code = b.code) : a = b := by
  rw [← a.ofNat_ctorIdx, ← b.ofNat_ctorIdx]
  exact congrArg ColumnType.ofNat h

theorem ColumnType.size_le (type : ColumnType) : type.info.columnTypeSize ≤ 8 := by
  cases type <;> decide

theorem Summarized.var_pos_iff {key : UnionKeyMeta} {types : List ColumnType}
    (h : Summarized key types) (hcount : types.length < 256) :
    0 < key.varColumnCount ↔ key.fixed = false := by
  have hle := List.countP_le_length (p := fun t : ColumnType => !t.info.fixed) (l := types)
  rw [h.varColumnCount, Nat.mod_eq_of_lt (by omega), List.countP_pos_iff, h.fixed,
    List.all_eq_false]
  simp

namespace UnionKeyMeta

variable {k k' : UnionKeyMeta} {c c' : UniqueKeyTypePair} {cs cs' : List UniqueKeyTypePair}
  {start dest p : Nat} {newType old : ColumnType} {types : List ColumnType}

/-! ## Moves -/

/-- The type of a column after the one at `start` has got another type. -/
def retype (start : Nat) (newType : ColumnType) (c : UniqueKeyTypePair) (old : ColumnType) : ColumnType :=
  if c.columnId = start then newType else old

/-- The counters of a key have gone from columns of the types `olds` to columns of the types `news`. -/
structure Recounted (k k' : UnionKeyMeta) (olds news : List ColumnType) : Prop where
  fixed : k'.fixed = k.fixed
  size : (k'.size + (olds.map keyWidth).sum) % 2 ^ 16 = (k.size + (news.map keyWidth).sum) % 2 ^ 16
  size_lt : k'.size < 2 ^ 16
  var : (k'.varColumnCount + olds.countP fun t => !t.info.fixed) % 2 ^ 8 =
    (k.varColumnCount + news.countP fun t => !t.info.fixed) % 2 ^ 8
  var_lt : k'.varColumnCount < 2 ^ 8

/-- A pair whose type changes is counted anew. -/
theorem updatePair_counts (hold : c.type = old.code) (hsize : k.size < 2 ^ 16)
    (hvar : k.varColumnCount < 2 ^ 8) (h : updatePair start dest newType k c = .ok (k', c')) :
    c'.type = (retype start newType c old).code ∧
      Recounted k k' [old] [retype start newType c old] := by
  have hsame (hne : c.columnId ≠ start) : retype start newType c old = old := if_neg hne
  unfold updatePair at h
  split at h
  case isTrue hout =>
    cases h
    rw [hsame (by omega)]
    exact ⟨hold, rfl, rfl, hsize, rfl, hvar⟩
  case isFalse hin =>
    split at h
    case isTrue heq =>
      rw [hold, ColumnType.columnInfos_code, Exec.ok_bind] at h
      have hnew : retype start newType c old = newType := if_pos heq
      rw [hnew]
      cases hf : old.info.fixed <;> cases hf' : newType.info.fixed <;>
        simp only [hf, hf', Bool.false_eq_true, not_true_eq_false, not_false_eq_true, and_true, and_false,
          if_true, if_false] at h <;> cases h
      · exact ⟨rfl, rfl, by simp [keyWidth, hf, hf'], hsize, by simp [hf, hf'], hvar⟩
      · refine ⟨rfl, rfl, ?_, Nat.mod_lt _ (by decide), ?_, Nat.mod_lt _ (by decide)⟩
        · simp only [keyWidth, hf, hf', sub16, List.map_cons, List.map_nil, List.sum_cons, List.sum_nil,
            Bool.false_eq_true, if_false, if_true]
          omega
        · simp only [sub8, hf, hf', List.countP_cons, List.countP_nil, Bool.not_false, Bool.not_true,
            Bool.false_eq_true, if_false, if_true]
          omega
      · refine ⟨rfl, rfl, ?_, Nat.mod_lt _ (by decide), ?_, Nat.mod_lt _ (by decide)⟩
        · simp only [keyWidth, hf, hf', sub16, List.map_cons, List.map_nil, List.sum_cons, List.sum_nil,
            Bool.false_eq_true, if_false, if_true]
          omega
        · simp only [hf, hf', List.countP_cons, List.countP_nil, Bool.not_false, Bool.not_true,
            Bool.false_eq_true, if_false, if_true]
          omega
      · refine ⟨rfl, rfl, ?_, Nat.mod_lt _ (by decide), by simp [hf, hf'], hvar⟩
        simp only [keyWidth, hf, hf', sub16, List.map_cons, List.map_nil, List.sum_cons, List.sum_nil,
          if_true]
        omega
    case isFalse hne =>
      rw [hsame hne]
      split at h
      · cases h
        exact ⟨hold, rfl, rfl, hsize, rfl, hvar⟩
      · cases h
        exact ⟨hold, rfl, rfl, hsize, rfl, hvar⟩

theorem add_mod_trans {n a b c x x' y y' : Nat} (h : (b + x) % n = (a + y) % n)
    (h' : (c + x') % n = (b + y') % n) : (c + (x + x')) % n = (a + (y + y')) % n := by
  calc (c + (x + x')) % n = ((c + x') % n + x) % n := by
        rw [Nat.mod_add_mod, Nat.add_assoc, Nat.add_comm x' x]
    _ = ((b + x) % n + y') % n := by
        rw [h', Nat.mod_add_mod, Nat.mod_add_mod, Nat.add_right_comm]
    _ = (a + (y + y')) % n := by rw [h, Nat.mod_add_mod, Nat.add_assoc]

theorem Recounted.trans {k'' : UnionKeyMeta} {olds olds' news news' : List ColumnType}
    (h : Recounted k k' olds news) (h' : Recounted k' k'' olds' news') :
    Recounted k k'' (olds ++ olds') (news ++ news') := by
  refine ⟨h'.fixed.trans h.fixed, ?_, h'.size_lt, ?_, h'.var_lt⟩
  · rw [List.map_append, List.map_append, List.sum_append, List.sum_append]
    exact add_mod_trans h.size h'.size
  · rw [List.countP_append, List.countP_append]
    exact add_mod_trans h.var h'.var

theorem updatePairs_counts (hcs : cs.map UniqueKeyTypePair.type = types.map ColumnType.code)
    (hsize : k.size < 2 ^ 16) (hvar : k.varColumnCount < 2 ^ 8)
    (h : updatePairs start dest newType k cs = .ok (k', cs')) :
    cs'.map UniqueKeyTypePair.type =
        (List.zipWith (retype start newType) cs types).map ColumnType.code ∧
      Recounted k k' types (List.zipWith (retype start newType) cs types) := by
  induction cs generalizing k cs' types with
  | nil =>
    cases h
    cases List.map_eq_nil_iff.mp hcs.symm
    exact ⟨rfl, rfl, rfl, hsize, rfl, hvar⟩
  | cons c cs ih =>
    cases types with
    | nil => cases hcs
    | cons old types =>
      obtain ⟨hold, hrest⟩ := List.cons.inj hcs
      obtain ⟨⟨k₁, c₁⟩, hpair, h⟩ := Exec.of_bind h
      obtain ⟨⟨k₂, cs₂⟩, hpairs, h⟩ := Exec.of_bind h
      cases h
      obtain ⟨htype, hcount⟩ := updatePair_counts hold hsize hvar hpair
      obtain ⟨htypes, hcounts⟩ := ih hrest hcount.size_lt hcount.var_lt hpairs
      refine ⟨?_, hcount.trans hcounts⟩
      rw [List.map_cons, htype, htypes]
      rfl

/-- The types of the columns of a key are all fixed. -/
def allFixed (types : List ColumnType) : Bool := types.all fun t => t.info.fixed

/-- The summary of a key follows a column update. -/
theorem columnUpdate_exact (hcount : k.columnInfo.length < 256)
    (hcs : k.columnInfo.map UniqueKeyTypePair.type = types.map ColumnType.code)
    (hsummary : Summarized k types)
    (hkeeps : allFixed (List.zipWith (retype start newType) k.columnInfo types) = allFixed types)
    (h : k.columnUpdate start dest newType = .ok k') :
    k'.columnInfo.map UniqueKeyTypePair.type =
        (List.zipWith (retype start newType) k.columnInfo types).map ColumnType.code ∧
      Summarized k' (List.zipWith (retype start newType) k.columnInfo types) := by
  obtain ⟨⟨k₁, cs⟩, hpairs, h⟩ := Exec.of_bind h
  have hsize : k.size < 2 ^ 16 := hsummary.size ▸ Nat.mod_lt _ (by decide)
  have hvar : k.varColumnCount < 2 ^ 8 := hsummary.varColumnCount ▸ Nat.mod_lt _ (by decide)
  obtain ⟨htypes, hcounts⟩ := updatePairs_counts hcs hsize hvar hpairs
  have hlen' : (List.zipWith (retype start newType) k.columnInfo types).length < 256 := by
    rw [List.length_zipWith]
    omega
  generalize List.zipWith (retype start newType) k.columnInfo types = news at *
  have hsummary' : Summarized k₁ news := by
    have hsizes := hcounts.size
    have hvars := hcounts.var
    have hsize_lt := hcounts.size_lt
    have hvar_lt := hcounts.var_lt
    rw [hsummary.size] at hsizes
    rw [hsummary.varColumnCount] at hvars
    refine ⟨by omega, ?_, by omega⟩
    rw [hcounts.fixed, hsummary.fixed]
    exact hkeeps.symm
  have hpos := hsummary'.var_pos_iff hlen'
  -- neither of the two corrections at the end is made
  dsimp only at h
  split at h
  case isTrue hvarFixed =>
    rw [hpos.mp hvarFixed.1] at hvarFixed
    cases hvarFixed.2
  case isFalse =>
    split at h
    case isTrue hnone =>
      cases hfixed : k₁.fixed with
      | true => exact absurd hfixed hnone.2
      | false =>
        have := hpos.mpr hfixed
        omega
    case isFalse =>
      cases h
      exact ⟨htypes, hsummary'.size, hsummary'.fixed, hsummary'.varColumnCount⟩

/-! ## Drops -/

/-- A key without the column keeps its types and its summary. -/
theorem dropLoop_kept {remove : UnionKeyMeta → Nat → UniqueKeyTypePair → Exec UnionKeyMeta}
    {fuel i : Nat} (hp : ∀ c ∈ k.columnInfo.drop i, c.columnId ≠ p)
    (h : dropLoop remove p fuel i k = .ok k') :
    k'.columnInfo.map UniqueKeyTypePair.type = k.columnInfo.map UniqueKeyTypePair.type ∧
      k'.size = k.size ∧ k'.fixed = k.fixed ∧ k'.varColumnCount = k.varColumnCount := by
  induction fuel generalizing i k with
  | zero =>
    cases h
    exact ⟨rfl, rfl, rfl, rfl⟩
  | succ fuel ih =>
    cases hget : k.columnInfo[i]? with
    | none =>
      rw [dropLoop, hget] at h
      cases h
      exact ⟨rfl, rfl, rfl, rfl⟩
    | some c =>
      rw [dropLoop, hget] at h
      dsimp only at h
      have hmem : c ∈ k.columnInfo.drop i := by
        rw [List.mem_iff_getElem?]
        exact ⟨0, by rwa [List.getElem?_drop]⟩
      have hnext : ∀ c ∈ k.columnInfo.drop (i + 1), c.columnId ≠ p := by
        intro c hc
        rw [← List.tail_drop] at hc
        exact hp c (List.mem_of_mem_tail hc)
      split at h
      case isTrue hbehind =>
        have hkept := ih (by rwa [List.drop_set_of_lt (Nat.lt_succ_self i)]) h
        refine ⟨hkept.1.trans ?_, hkept.2⟩
        apply List.ext_getElem?
        intro j
        rw [List.getElem?_map, List.getElem?_set, List.getElem?_map]
        split
        case isTrue heq =>
          subst heq
          rw [if_pos (List.getElem?_eq_some_iff.mp hget).1, hget]
          rfl
        case isFalse => rfl
      case isFalse =>
        split at h
        case isTrue heq => exact absurd heq (hp c hmem)
        case isFalse => exact ih hnext h

theorem dropColumn_exact {remove : UnionKeyMeta → Nat → UniqueKeyTypePair → Exec UnionKeyMeta}
    (hexact : SelfExact k) (hp : ∀ c ∈ k.columnInfo, c.columnId ≠ p)
    (h : k.dropColumn remove p = .ok k') : SelfExact k' := by
  obtain ⟨htypes, hsize, hfixed, hvar⟩ := dropLoop_kept (i := 0) hp h
  obtain ⟨types, hcodes, hsummary⟩ := hexact.summary
  have hlen := congrArg List.length htypes
  rw [List.length_map, List.length_map] at hlen
  exact ⟨hlen ▸ hexact.count, types, htypes.trans hcodes, hsize ▸ hsummary.size,
    hfixed ▸ hsummary.fixed, hvar ▸ hsummary.varColumnCount⟩

end UnionKeyMeta

end DBStream.Native.Meta
