import DBStream.ForStd.ListEdit
import DBStream.Native.MetaData

/-!
# Edits of the columns of keys

`editPairs` is what an edit of the columns of a table should do to the columns of a key.
`columnUpdate` does it for a column that is moved, and the loops of `dropColumn` for one that is
dropped: that over the primary key always, that over a unique key where the column is the last one.
-/

namespace DBStream.Native.Meta

/-- What an edit does to a column of a key; a column that is replaced has the type `type`. -/
def editPair (e : ListEdit) (type : ColumnType) (c : UniqueKeyTypePair) : Option UniqueKeyTypePair :=
  (e.place c.columnId).map fun columnId =>
    { type := if e.replaces c.columnId then type.code else c.type, columnId := columnId }

/-- What an edit does to the columns of a key. -/
def editPairs (e : ListEdit) (type : ColumnType) (cs : List UniqueKeyTypePair) :
    List UniqueKeyTypePair :=
  cs.filterMap (editPair e type)

namespace UnionKeyMeta

variable {e : ListEdit} {type : ColumnType} {k k' : UnionKeyMeta} {c c' : UniqueKeyTypePair}
  {cs cs' : List UniqueKeyTypePair} {start dest p : Nat}

/-! ## Moves -/

theorem sub16_one {n : Nat} (h : 0 < n) (hn : n < 2 ^ 16) : sub16 n 1 = n - 1 := by
  unfold sub16
  omega

theorem editPair_move_of_ne (hne : c.columnId ≠ start) {q : Nat}
    (hq : (ListEdit.move start dest).place c.columnId = some q) :
    editPair (.move start dest) type c = some { c with columnId := q } := by
  simp [editPair, hq, ListEdit.replaces, hne]

theorem updatePair_spec (hstart : start < 2 ^ 16) (hc : c.columnId < 2 ^ 16)
    (h : updatePair start dest type k c = .ok (k', c')) :
    editPair (.move start dest) type c = some c' := by
  unfold updatePair at h
  split at h
  case isTrue hout =>
    cases h
    exact editPair_move_of_ne (by omega) (by simp only [ListEdit.place]; grind)
  case isFalse hin =>
    split at h
    case isTrue heq =>
      obtain ⟨old, -, h⟩ := Exec.of_bind h
      cases h
      simp [editPair, ListEdit.place, ListEdit.replaces, heq]
    case isFalse hne =>
      split at h
      case isTrue hlt =>
        cases h
        exact editPair_move_of_ne hne (by simp only [ListEdit.place]; grind)
      case isFalse hge =>
        cases h
        rw [sub16_one (by omega) hc]
        exact editPair_move_of_ne hne (by simp only [ListEdit.place]; grind)

private theorem updatePairs_spec (hstart : start < 2 ^ 16) (hcs : ∀ c ∈ cs, c.columnId < 2 ^ 16)
    (h : updatePairs start dest type k cs = .ok (k', cs')) :
    cs' = editPairs (.move start dest) type cs := by
  induction cs generalizing k k' cs' with
  | nil =>
    cases h
    rfl
  | cons c cs ih =>
    obtain ⟨⟨k₁, c₁⟩, hpair, h⟩ := Exec.of_bind h
    obtain ⟨⟨k₂, cs₂⟩, hpairs, h⟩ := Exec.of_bind h
    cases h
    have hedit := updatePair_spec hstart (hcs c (List.mem_cons_self ..)) hpair
    have hrest := ih (fun c hc => hcs c (List.mem_cons_of_mem _ hc)) hpairs
    rw [editPairs, List.filterMap_cons_some hedit, hrest]
    rfl

theorem columnUpdate_spec (hstart : start < 2 ^ 16) (hcs : ∀ c ∈ k.columnInfo, c.columnId < 2 ^ 16)
    (h : k.columnUpdate start dest type = .ok k') :
    k'.columnInfo = editPairs (.move start dest) type k.columnInfo := by
  obtain ⟨⟨k₁, cs⟩, hpairs, h⟩ := Exec.of_bind h
  rw [← updatePairs_spec hstart hcs hpairs]
  -- the sizes that are set last are not part of the columns
  dsimp only at h
  split at h
  · rw [← Except.ok.inj h]
  · split at h
    · rw [← Except.ok.inj h]
    · rw [← Except.ok.inj h]

/-! ## Insertions -/

theorem editPair_insert (h : c.columnId < p) : editPair (.insert p) type c = some c := by
  simp [editPair, ListEdit.place, ListEdit.replaces, h]

theorem editPairs_of_same (h : ∀ c ∈ cs, editPair e type c = some c) : editPairs e type cs = cs := by
  induction cs with
  | nil => rfl
  | cons c cs ih =>
    rw [editPairs, List.filterMap_cons_some (h c (List.mem_cons_self ..))]
    exact congrArg _ (ih fun c hc => h c (List.mem_cons_of_mem _ hc))

theorem editPairs_insert (h : ∀ c ∈ cs, c.columnId < p) : editPairs (.insert p) type cs = cs :=
  editPairs_of_same fun c hc => editPair_insert (h c hc)

theorem editPairs_move_self (h : ∀ c ∈ cs, c.columnId < p) :
    editPairs (.move p p) type cs = cs := by
  refine editPairs_of_same fun c hc => ?_
  have hlt := h c hc
  exact editPair_move_of_ne (by omega) (by simp only [ListEdit.place]; grind)

/-! ## Drops -/

theorem ofBytes_bytesOf (cs : List UniqueKeyTypePair) : ofBytes (bytesOf cs) = cs := by
  induction cs with
  | nil => rfl
  | cons c cs ih =>
    show (⟨c.type, c.columnId % 256 + 256 * (c.columnId / 256)⟩ : UniqueKeyTypePair) ::
      ofBytes (bytesOf cs) = c :: cs
    rw [ih, Nat.mod_add_div]

theorem bytesOf_take (cs : List UniqueKeyTypePair) (i : Nat) :
    (bytesOf cs).take (3 * i) = bytesOf (cs.take i) := by
  induction cs generalizing i with
  | nil => simp [bytesOf]
  | cons c cs ih =>
    cases i with
    | zero => rfl
    | succ i =>
      have hrest := ih i
      simpa [bytesOf, Nat.mul_succ] using hrest

theorem bytesOf_drop (cs : List UniqueKeyTypePair) (i : Nat) :
    (bytesOf cs).drop (3 * i) = bytesOf (cs.drop i) := by
  induction cs generalizing i with
  | nil => simp [bytesOf]
  | cons c cs ih =>
    cases i with
    | zero => rfl
    | succ i =>
      have hrest := ih i
      simpa [bytesOf, Nat.mul_succ] using hrest

theorem length_bytesOf (cs : List UniqueKeyTypePair) : (bytesOf cs).length = 3 * cs.length := by
  induction cs with
  | nil => rfl
  | cons c cs ih =>
    show (bytesOf cs).length + 3 = _
    rw [ih, List.length_cons]
    omega

private theorem closeGap_zero {i : Nat} (hi : i < cs.length) : closeGap cs i 0 = cs.eraseIdx i := by
  have happend : bytesOf (cs.take i) ++ bytesOf (cs.drop (i + 1)) = bytesOf (cs.eraseIdx i) := by
    rw [List.eraseIdx_eq_take_drop_succ]
    simp [bytesOf]
  have hlen : (bytesOf (cs.eraseIdx i)).length = 3 * (cs.length - 1) := by
    rw [length_bytesOf, List.length_eraseIdx_of_lt hi]
  unfold closeGap
  dsimp only
  rw [Nat.add_zero, bytesOf_take, bytesOf_drop, happend, ← hlen, List.take_length, ofBytes_bytesOf]

private theorem closeGap_last {i : Nat} (hi : i + 1 = cs.length) (b : Nat) :
    closeGap cs i b = cs.eraseIdx i := by
  have hfront : 3 * (cs.length - 1) = 3 * i := by omega
  have hnil : bytesOf [] = [] := rfl
  unfold closeGap
  dsimp only
  rw [bytesOf_drop, List.drop_of_length_le (by omega), hnil, List.append_nil, hfront, List.take_take,
    Nat.min_eq_left (by omega), bytesOf_take, ofBytes_bytesOf, List.eraseIdx_eq_take_drop_succ,
    List.drop_of_length_le (by omega), List.append_nil]

theorem forgetVar_columnInfo {t : Nat} (h : k.forgetVar t = .ok k') :
    k'.columnInfo = k.columnInfo := by
  obtain ⟨info, -, h⟩ := Exec.of_bind h
  rw [← Except.ok.inj h]
  split <;> rfl

theorem removeFromPrimary_spec {i : Nat} (hi : i < k.columnInfo.length)
    (h : k.removeFromPrimary i c = .ok k') : k'.columnInfo = k.columnInfo.eraseIdx i := by
  rw [forgetVar_columnInfo h]
  exact closeGap_zero hi

theorem removeFromUnique_spec {i : Nat} (hi : i + 1 = k.columnInfo.length)
    (h : k.removeFromUnique i c = .ok k') : k'.columnInfo = k.columnInfo.eraseIdx i := by
  obtain ⟨k₁, hforget, h⟩ := Exec.of_bind h
  rw [← Except.ok.inj h, ← forgetVar_columnInfo hforget]
  rw [← forgetVar_columnInfo hforget] at hi
  exact closeGap_last hi 1

/-- The pairs from which `remove` can take a column out. -/
structure Removes (remove : UnionKeyMeta → Nat → UniqueKeyTypePair → Exec UnionKeyMeta) (p : Nat)
    (admits : List UniqueKeyTypePair → Prop) : Prop where
  tail : ∀ {c cs}, admits (c :: cs) → admits cs
  erases : ∀ {k : UnionKeyMeta} {i c cs k'}, k.columnInfo.drop i = c :: cs → c.columnId = p →
    admits (c :: cs) → remove k i c = .ok k' → k'.columnInfo = k.columnInfo.eraseIdx i

theorem removes_primary (p : Nat) : Removes removeFromPrimary p fun _ => True where
  tail := fun _ => trivial
  erases := by
    intro k i c cs k' hdrop _ _ hremove
    have hi : i < k.columnInfo.length := by
      have hlen := congrArg List.length hdrop
      simp at hlen
      omega
    exact removeFromPrimary_spec hi hremove

theorem removes_unique (p : Nat) :
    Removes removeFromUnique p fun cs => ∀ c ∈ cs.dropLast, c.columnId ≠ p where
  tail := by
    intro c cs h d hd
    cases cs with
    | nil => cases hd
    | cons c' cs => exact h d (List.mem_cons_of_mem _ hd)
  erases := by
    intro k i c cs k' hdrop hp hadmits hremove
    cases cs with
    | nil =>
      have hlen := congrArg List.length hdrop
      simp at hlen
      exact removeFromUnique_spec (by omega) hremove
    | cons c' cs => exact absurd hp (hadmits c (List.mem_cons_self ..))

theorem editPair_erase_behind (h : p < c.columnId) :
    editPair (.erase p) type c = some { c with columnId := c.columnId - 1 } := by
  have hplace : (ListEdit.erase p).place c.columnId = some (c.columnId - 1) := by
    simp only [ListEdit.place]
    grind
  simp [editPair, hplace, ListEdit.replaces]

theorem editPair_erase_self (h : c.columnId = p) : editPair (.erase p) type c = none := by
  simp [editPair, ListEdit.place, h]

theorem editPair_erase_before (h : c.columnId < p) : editPair (.erase p) type c = some c := by
  simp [editPair, ListEdit.place, ListEdit.replaces, h]

theorem editPairs_erase_before (h : ∀ c ∈ cs, c.columnId < p) : editPairs (.erase p) type cs = cs :=
  editPairs_of_same fun c hc => editPair_erase_before (h c hc)

theorem drop_succ_of_drop {i : Nat} {l : List UniqueKeyTypePair} (h : l.drop i = c :: cs) :
    l[i]? = some c ∧ l.drop (i + 1) = cs ∧ l.take (i + 1) = l.take i ++ [c] := by
  have hget : l[i]? = some c := by
    rw [← List.head?_drop, h]
    rfl
  refine ⟨hget, ?_, ?_⟩
  · rw [← List.tail_drop, h]
    rfl
  · rw [List.take_add_one, hget]
    rfl

/-- The loop erases the column from the key. -/
theorem dropLoop_spec {remove : UnionKeyMeta → Nat → UniqueKeyTypePair → Exec UnionKeyMeta}
    {admits : List UniqueKeyTypePair → Prop} (hremove : Removes remove p admits) {fuel i : Nat}
    (hdrop : k.columnInfo.drop i = cs) (hadmits : admits cs) (hfuel : cs.length ≤ fuel)
    (h : dropLoop remove p fuel i k = .ok k') :
    k'.columnInfo = k.columnInfo.take i ++ editPairs (.erase p) type cs := by
  induction fuel generalizing i k cs with
  | zero =>
    have hnil : cs = [] := List.eq_nil_of_length_eq_zero (Nat.le_zero.mp hfuel)
    subst hnil
    cases h
    rw [List.take_of_length_le (List.drop_eq_nil_iff.mp hdrop)]
    exact (List.append_nil _).symm
  | succ fuel ih =>
    cases cs with
    | nil =>
      have hlen := List.drop_eq_nil_iff.mp hdrop
      rw [dropLoop, List.getElem?_eq_none hlen] at h
      cases h
      rw [List.take_of_length_le hlen]
      exact (List.append_nil _).symm
    | cons c cs =>
      obtain ⟨hget, hrest, htake⟩ := drop_succ_of_drop hdrop
      have hi := (List.getElem?_eq_some_iff.mp hget).1
      rw [dropLoop, hget] at h
      dsimp only at h
      have hadmits' := hremove.tail hadmits
      have hfuel' : cs.length ≤ fuel := Nat.le_of_succ_le_succ hfuel
      split at h
      -- a column behind the dropped one moves one place to the front
      case isTrue hbehind =>
        rw [editPairs, List.filterMap_cons_some (editPair_erase_behind hbehind)]
        have hih := ih (by rw [List.drop_set_of_lt (Nat.lt_succ_self i), hrest]) hadmits' hfuel' h
        have hset : (k.columnInfo.set i { c with columnId := c.columnId - 1 }).take (i + 1) =
            k.columnInfo.take i ++ [{ c with columnId := c.columnId - 1 }] := by
          rw [List.take_add_one, List.getElem?_set_self hi, List.take_set_of_le (Nat.le_refl i)]
          rfl
        rw [hih, hset, List.append_assoc]
        rfl
      case isFalse hle =>
        split at h
        -- the dropped column: the loop goes on at the same place
        case isTrue heq =>
          obtain ⟨k₁, hrm, h⟩ := Exec.of_bind h
          have herase := hremove.erases hdrop heq hadmits hrm
          have hsplit : k.columnInfo.eraseIdx i = k.columnInfo.take i ++ cs := by
            rw [List.eraseIdx_eq_take_drop_succ, hrest]
          have hlen : (k.columnInfo.take i).length = i := List.length_take_of_le (Nat.le_of_lt hi)
          rw [hsplit] at herase
          have hih := ih (by rw [herase, List.drop_left' hlen]) hadmits' hfuel' h
          rw [hih, herase, List.take_left' hlen, editPairs, editPairs,
            List.filterMap_cons_none (editPair_erase_self heq)]
        case isFalse hne =>
          rw [editPairs, List.filterMap_cons_some (editPair_erase_before (by omega))]
          rw [ih hrest hadmits' hfuel' h, htake, List.append_assoc]
          rfl

theorem dropColumn_spec {remove : UnionKeyMeta → Nat → UniqueKeyTypePair → Exec UnionKeyMeta}
    {admits : List UniqueKeyTypePair → Prop} (hremove : Removes remove p admits)
    (hadmits : admits k.columnInfo) (h : k.dropColumn remove p = .ok k') :
    k'.columnInfo = editPairs (.erase p) type k.columnInfo := by
  have hall : k.columnInfo.drop 0 = k.columnInfo := rfl
  rw [dropLoop_spec hremove hall hadmits (Nat.le_refl _) h, List.take_zero, List.nil_append]

end UnionKeyMeta

end DBStream.Native.Meta
