import DBStream.Native.Constraint
import DBStream.Spec.DMLOldValues
import DBStream.Spec.KeySummary

/-!
# Records with equal keys

Records whose keys have equal values, in the new or the old image, are put in one entry of the map of
the key, and erasing the last nodes of the entries leaves the map empty.
-/

namespace DBStream.Native.REPLICATOR

open Meta DMLRecord

/-! ## Entries -/

/-- From a node the links of the nodes before the last one lead to the last one. -/
inductive InEntry (s : KeyBucket) : Nat → Nat → Prop
  | head {a : Nat} : (s.nodes a).type = .HEAD → InEntry s a a
  | next {a h : Nat} : (s.nodes a).type = .NORMAL → InEntry s (s.nodes a).word h → InEntry s a h

/-- Two nodes are in the same entry. -/
def SameEntry (s : KeyBucket) (a b : Nat) : Prop :=
  ∃ value head, s.bucket.get value = some head ∧ InEntry s a head ∧ InEntry s b head

/-- Erasing the keys of these nodes erases the entry of each of them and no other one; the map is
    empty after the last one, and not before. -/
def Erases (meta' : Meta.TableMeta) (key : Meta.UnionKeyMeta) : List Nat → KeyBucket → Prop
  | [], s => s.bucket = []
  | head :: heads, s => ∃ s', eraseKey meta' head key s = .ok (heads.isEmpty, s') ∧
      (∃ value, s.bucket.get value = some head ∧ s'.bucket.get value = none ∧
        ∀ value' ≠ value, s'.bucket.get value' = s.bucket.get value') ∧
      Erases meta' key heads s'

/-- The state after some nodes with the values of the map are inserted. -/
structure Chains (t : VType) (log : List (Nat × Nat)) (s : KeyBucket) : Prop where
  nodup : (log.map Prod.fst).Nodup
  logged : ∀ {value head}, s.bucket.get value = some head → (head, value) ∈ log
  word : ∀ {value head}, s.bucket.get value = some head → (s.nodes head).type = .HEAD ∧
    (s.nodes head).word = widen t.size t.isSigned value ∧ value < 2 ^ (8 * t.size)
  entry : ∀ {node value}, (node, value) ∈ log →
    ∃ head, s.bucket.get value = some head ∧ InEntry s node head
  last : ∀ {node value}, (node, value) ∈ log → (s.nodes node).type = .HEAD →
    s.bucket.get value = some node
  linked : ∀ {node}, node ∈ log.map Prod.fst → (s.nodes node).type = .NORMAL →
    (s.nodes node).word ∈ log.map Prod.fst

variable {t : VType} {log : List (Nat × Nat)} {s s' : KeyBucket} {node value : Nat}

theorem chains_nil (nodes : Nat → BlockListNode) : Chains t [] ⟨[], nodes⟩ := by
  constructor <;> simp [Cells.get]

theorem InEntry.congr {a h : Nat} (he : InEntry s a h) (hc : Chains t log s)
    (ha : a ∈ log.map Prod.fst)
    (hsame : ∀ b ∈ log.map Prod.fst, (s.nodes b).type = .NORMAL → s'.nodes b = s.nodes b)
    (hhead : (s'.nodes h).type = .HEAD) : InEntry s' a h := by
  induction he with
  | head => exact .head hhead
  | @next a h htype _ ih =>
    have hnode := hsame a ha htype
    have hrest := ih (hc.linked ha htype) hhead
    rw [← hnode] at htype hrest
    exact .next htype hrest

theorem InEntry.extend {a h : Nat} (he : InEntry s a h) (hc : Chains t log s)
    (ha : a ∈ log.map Prod.fst)
    (hsame : ∀ b ∈ log.map Prod.fst, (s.nodes b).type = .NORMAL → s'.nodes b = s.nodes b)
    (hlink : s'.nodes h = ⟨node, .NORMAL⟩) (hnode : (s'.nodes node).type = .HEAD) :
    InEntry s' a node := by
  induction he with
  | head =>
    refine .next (by rw [hlink]) ?_
    rw [hlink]
    exact .head hnode
  | @next a h htype _ ih =>
    have hkept := hsame a ha htype
    have hrest := ih (hc.linked ha htype) hlink
    rw [← hkept] at htype hrest
    exact .next htype hrest

private theorem fixedInsert_new (t : VType) (node : Nat) (hvalue : s.bucket.get value = none) :
    ∃ s', FIXED_INSERT t (some value) node s = .ok (node, s') ∧
      s'.bucket = Cells.put value node s.bucket ∧
      s'.nodes node = ⟨widen t.size t.isSigned value, .HEAD⟩ ∧
      ∀ b ≠ node, s'.nodes b = s.nodes b := by
  have hget : ((s.setType node .HEAD).setWord node (widen t.size t.isSigned value)).bucket.get value =
      none := hvalue
  unfold FIXED_INSERT
  simp only [deref_some, Exec.ok_bind, hget]
  refine ⟨_, rfl, rfl, ?_, fun b hb => ?_⟩
  · simp [KeyBucket.setType, KeyBucket.setWord]
  · simp [KeyBucket.setType, KeyBucket.setWord, hb]

theorem fixedInsert_behind (t : VType) {prev : Nat} (hvalue : s.bucket.get value = some prev)
    (hne : prev ≠ node) :
    ∃ s', FIXED_INSERT t (some value) node s = .ok (prev, s') ∧
      s'.bucket = Cells.put value node s.bucket ∧
      s'.nodes node = ⟨widen t.size t.isSigned value, .HEAD⟩ ∧ s'.nodes prev = ⟨node, .NORMAL⟩ ∧
      ∀ b, b ≠ node → b ≠ prev → s'.nodes b = s.nodes b := by
  have hget : ((s.setType node .HEAD).setWord node (widen t.size t.isSigned value)).bucket.get value =
      some prev := hvalue
  unfold FIXED_INSERT
  simp only [deref_some, Exec.ok_bind, hget]
  refine ⟨_, rfl, rfl, ?_, ?_, fun b hb hb' => ?_⟩
  · simp [KeyBucket.setType, KeyBucket.setWord, hne.symm]
  · simp [KeyBucket.setType, KeyBucket.setWord]
  · simp [KeyBucket.setType, KeyBucket.setWord, hb, hb']

/-- The entry of a node and the others after an insertion, of which the new node is the last one of
    its entry. -/
theorem chains_of_inserted (hc : Chains t log s) (hfresh : node ∉ log.map Prod.fst)
    (hvalue : value < 2 ^ (8 * t.size)) (hbucket : s'.bucket = Cells.put value node s.bucket)
    (hnode : s'.nodes node = ⟨widen t.size t.isSigned value, .HEAD⟩)
    (hprev : ∀ prev, s.bucket.get value = some prev → s'.nodes prev = ⟨node, .NORMAL⟩)
    (hsame : ∀ b ≠ node, s.bucket.get value ≠ some b → s'.nodes b = s.nodes b) :
    Chains t (log ++ [(node, value)]) s' := by
  have hself : s'.bucket.get value = some node := by rw [hbucket, Cells.get_put_self]
  have hother {value' : Nat} (h : value' ≠ value) : s'.bucket.get value' = s.bucket.get value' := by
    rw [hbucket, Cells.get_put_of_ne h]
  have hmem {b : Nat} (h : b ∈ log.map Prod.fst) : b ≠ node := by
    rintro rfl
    exact hfresh h
  have hnodeHead : (s'.nodes node).type = .HEAD := by rw [hnode]
  have hnormal : ∀ b ∈ log.map Prod.fst, (s.nodes b).type = .NORMAL → s'.nodes b = s.nodes b := by
    intro b hb htype
    refine hsame b (hmem hb) fun hhead => ?_
    rw [(hc.word hhead).1] at htype
    cases htype
  -- the heads of the other entries are not touched
  have hkept {value' head : Nat} (hne : value' ≠ value) (h : s.bucket.get value' = some head) :
      s'.nodes head = s.nodes head := by
    refine hsame head (hmem (List.mem_map_of_mem (hc.logged h))) fun hhead => hne ?_
    have heq := List.inj_on_of_nodup_map hc.nodup (hc.logged h) (hc.logged hhead) rfl
    exact (Prod.mk.inj heq).2
  constructor
  · rw [List.map_append, List.nodup_append]
    refine ⟨hc.nodup, by simp, ?_⟩
    intro a ha b hb
    obtain rfl : b = node := by simpa using hb
    exact hmem ha
  · intro value' head h
    by_cases hv : value' = value
    · subst hv
      rw [hself] at h
      obtain rfl := Option.some.inj h
      simp
    · rw [hother hv] at h
      exact List.mem_append_left _ (hc.logged h)
  · intro value' head h
    by_cases hv : value' = value
    · subst hv
      rw [hself] at h
      obtain rfl := Option.some.inj h
      rw [hnode]
      exact ⟨rfl, rfl, hvalue⟩
    · rw [hother hv] at h
      rw [hkept hv h]
      exact hc.word h
  · intro a value' h
    obtain h | h := List.mem_append.mp h
    · obtain ⟨head, hget, he⟩ := hc.entry h
      have ha : a ∈ log.map Prod.fst := List.mem_map_of_mem h
      by_cases hv : value' = value
      · subst hv
        exact ⟨node, hself, he.extend hc ha hnormal (hprev head hget) hnodeHead⟩
      · refine ⟨head, (hother hv).trans hget, he.congr hc ha hnormal ?_⟩
        rw [hkept hv hget]
        exact (hc.word hget).1
    · obtain ⟨rfl, rfl⟩ : a = node ∧ value' = value := by simpa using h
      exact ⟨a, hself, .head hnodeHead⟩
  · intro a value' h htype
    obtain h | h := List.mem_append.mp h
    · have ha := hmem (List.mem_map_of_mem h)
      by_cases hhead : s.bucket.get value = some a
      · rw [hprev a hhead] at htype
        cases htype
      · rw [hsame a ha hhead] at htype
        have hget := hc.last h htype
        rw [hother (fun hv => hhead (hv ▸ hget)), hget]
    · obtain ⟨rfl, rfl⟩ : a = node ∧ value' = value := by simpa using h
      exact hself
  · intro a h htype
    rw [List.map_append] at h ⊢
    obtain h | h := List.mem_append.mp h
    · by_cases hhead : s.bucket.get value = some a
      · rw [hprev a hhead]
        simp
      · rw [hsame a (hmem h) hhead] at htype ⊢
        exact List.mem_append_left _ (hc.linked h htype)
    · obtain rfl : a = node := by simpa using h
      rw [hnodeHead] at htype
      cases htype

theorem chains_insert (hc : Chains t log s) (hfresh : node ∉ log.map Prod.fst)
    (hvalue : value < 2 ^ (8 * t.size)) :
    ∃ prev s', FIXED_INSERT t (some value) node s = .ok (prev, s') ∧
      Chains t (log ++ [(node, value)]) s' := by
  cases hget : s.bucket.get value with
  | none =>
    obtain ⟨s', hinsert, hbucket, hnode, hsame⟩ := fixedInsert_new t node hget
    refine ⟨node, s', hinsert, chains_of_inserted hc hfresh hvalue hbucket hnode ?_ ?_⟩
    · intro prev hprev
      rw [hget] at hprev
      cases hprev
    · exact fun b hb _ => hsame b hb
  | some prev =>
    have hne : prev ≠ node := by
      rintro rfl
      exact hfresh (List.mem_map_of_mem (hc.logged hget))
    obtain ⟨s', hinsert, hbucket, hnode, hprev, hsame⟩ := fixedInsert_behind t hget hne
    refine ⟨prev, s', hinsert, chains_of_inserted hc hfresh hvalue hbucket hnode ?_ ?_⟩
    · intro prev' hprev'
      rw [hget] at hprev'
      obtain rfl := Option.some.inj hprev'
      exact hprev
    · intro b hb hne'
      refine hsame b hb fun h => hne' ?_
      rw [hget, h]

/-! ## Erasing -/

private theorem widen_mod {size : Nat} (isSigned : Bool) (hsize : 0 < size ∧ size ≤ 8)
    (h : value < 2 ^ (8 * size)) : widen size isSigned value % 2 ^ (8 * size) = value := by
  have hdvd : 2 ^ (8 * size) ∣ 2 ^ 64 := Nat.pow_dvd_pow 2 (by omega)
  unfold widen
  split
  · obtain ⟨k, hk⟩ := hdvd
    rw [hk, show value + 2 ^ (8 * size) * k - 2 ^ (8 * size) = value + 2 ^ (8 * size) * (k - 1) by
      rw [Nat.mul_sub]
      have : 0 < k := by
        apply Nat.pos_of_ne_zero
        rintro rfl
        simp at hk
      have : 2 ^ (8 * size) ≤ 2 ^ (8 * size) * k := Nat.le_mul_of_pos_right _ this
      omega, Nat.add_mul_mod_self_left, Nat.mod_eq_of_lt h]
  · exact Nat.mod_eq_of_lt h

/-- The value that is erased with a node. -/
def erasedValue (t : VType) (s : KeyBucket) (head : Nat) : Nat :=
  (s.nodes head).word % 2 ^ (8 * t.size)

/-- The nodes in the map, which hold their values. -/
structure Heads (t : VType) (heads : List Nat) (s : KeyBucket) : Prop where
  nodup : heads.Nodup
  get : ∀ head ∈ heads, s.bucket.get (erasedValue t s head) = some head
  mem : ∀ {value head}, s.bucket.get value = some head → head ∈ heads ∧ erasedValue t s head = value

theorem bucket_eq_nil {bucket : Cells Nat} (h : ∀ value, bucket.get value = none) : bucket = [] := by
  cases bucket with
  | nil => rfl
  | cons e bucket =>
    have hfirst := h e.1
    simp [Cells.get] at hfirst

/-- The erase of a head removes its entry and no other one. -/
theorem Heads.erase {head : Nat} {heads : List Nat} (h : Heads t (head :: heads) s) :
    ∃ s', FIXED_ERASE t head s = (heads.isEmpty, s') ∧
      (∃ value, s.bucket.get value = some head ∧ s'.bucket.get value = none ∧
        ∀ value' ≠ value, s'.bucket.get value' = s.bucket.get value') ∧ Heads t heads s' := by
  have hget := h.get head (List.mem_cons_self ..)
  obtain ⟨hnot, hnodup⟩ := List.nodup_cons.mp h.nodup
  have hself : (Cells.free (erasedValue t s head) s.bucket).get (erasedValue t s head) = none :=
    Cells.get_free_self
  have hother {value : Nat} (hne : value ≠ erasedValue t s head) :
      (Cells.free (erasedValue t s head) s.bucket).get value = s.bucket.get value :=
    Cells.get_free_of_ne hne
  -- two heads have different values, so the other entries stay
  have hrest : Heads t heads { s with bucket := Cells.free (erasedValue t s head) s.bucket } := by
    constructor
    · exact hnodup
    · intro head' hhead'
      have hget' := h.get head' (List.mem_cons_of_mem _ hhead')
      have hne : erasedValue t s head' ≠ erasedValue t s head := by
        intro heq
        rw [heq, hget] at hget'
        obtain rfl := Option.some.inj hget'
        exact hnot hhead'
      exact (hother hne).trans hget'
    · intro value head' hget'
      have hne : value ≠ erasedValue t s head := by
        rintro rfl
        rw [hself] at hget'
        cases hget'
      rw [hother hne] at hget'
      obtain ⟨hmem, hvalue⟩ := h.mem hget'
      refine ⟨?_, hvalue⟩
      obtain rfl | hmem := List.mem_cons.mp hmem
      · exact absurd hvalue.symm hne
      · exact hmem
  refine ⟨_, ?_, ⟨_, hget, hself, fun _ hne => hother hne⟩, hrest⟩
  show (_, _) = _
  congr 1
  cases heads with
  -- no head is left: the bucket has no entry at all
  | nil =>
    have hnone : Cells.free (erasedValue t s head) s.bucket = [] := by
      refine bucket_eq_nil fun value => ?_
      cases hsome : (Cells.free (erasedValue t s head) s.bucket).get value with
      | none => rfl
      | some head' => cases (hrest.mem hsome).1
    exact congrArg List.isEmpty hnone
  | cons head' heads =>
    have hsome := hrest.get head' (List.mem_cons_self ..)
    show (Cells.free (erasedValue t s head) s.bucket).isEmpty = false
    cases hfree : Cells.free (erasedValue t s head) s.bucket with
    | nil =>
      have hnone : (Cells.free (erasedValue t s head) s.bucket).get (erasedValue t s head') =
          some head' := hsome
      rw [hfree] at hnone
      cases hnone
    | cons e rest => rfl

def mapType (meta' : Meta.TableMeta) (key : Meta.UnionKeyMeta) : Exec VType := do
  match key.columnInfo with
  | [c] => return eraseType (← tableAt meta'.m_columns c.columnId).m_columnType
  | _ => return uint32_t

theorem eraseKey_eq {meta' : Meta.TableMeta} {key : Meta.UnionKeyMeta} (ht : mapType meta' key = .ok t)
    (head : Nat) (s : KeyBucket) : eraseKey meta' head key s = .ok (FIXED_ERASE t head s) := by
  unfold mapType at ht
  unfold eraseKey
  generalize key.columnInfo = columns at ht ⊢
  obtain _ | ⟨c, _ | ⟨d, rest⟩⟩ := columns
  · cases ht
    rfl
  · obtain ⟨col, hcol, hret⟩ := Exec.of_bind ht
    cases hret
    dsimp only
    rw [hcol]
    rfl
  · cases ht
    rfl

theorem Heads.erases {meta' : Meta.TableMeta} {key : Meta.UnionKeyMeta} (ht : mapType meta' key = .ok t)
    {heads : List Nat} (h : Heads t heads s) : Erases meta' key heads s := by
  induction heads generalizing s with
  | nil =>
    refine bucket_eq_nil fun value => ?_
    cases hsome : s.bucket.get value with
    | none => rfl
    | some head => cases (h.mem hsome).1
  | cons head heads ih =>
    obtain ⟨s', herase, hentry, hrest⟩ := h.erase
    exact ⟨s', by rw [eraseKey_eq ht, herase], hentry, ih hrest⟩

theorem heads_of_chains (hc : Chains t log s) (hsize : 0 < t.size ∧ t.size ≤ 8) {heads : List Nat}
    (hperm : heads.Perm ((log.map Prod.fst).filter fun n => (s.nodes n).type = .HEAD)) :
    Heads t heads s := by
  have hvalue {value head : Nat} (h : s.bucket.get value = some head) :
      erasedValue t s head = value := by
    obtain ⟨-, hword, hlt⟩ := hc.word h
    rw [erasedValue, hword, widen_mod t.isSigned hsize hlt]
  constructor
  · exact hperm.nodup_iff.mpr (hc.nodup.filter _)
  · intro head hhead
    obtain ⟨hmem, htype⟩ := List.mem_filter.mp (hperm.mem_iff.mp hhead)
    obtain ⟨⟨head, value⟩, hlogged, rfl⟩ := List.mem_map.mp hmem
    have hget := hc.last hlogged (of_decide_eq_true htype)
    rw [hvalue hget, hget]
  · intro value head hget
    refine ⟨hperm.mem_iff.mpr (List.mem_filter.mpr ⟨?_, decide_eq_true (hc.word hget).1⟩), hvalue hget⟩
    exact List.mem_map_of_mem (hc.logged hget)

/-! ## Values -/

/-- The value of a column in an image of a record. -/
structure HasValue (r : DMLRecord) (newOrOld : Bool) (id : Nat) (t : Meta.ColumnType)
    (v : Option (List UInt8)) : Prop where
  null : v = none → keyColumn r newOrOld id = .ok none
  value : ∀ bs, v = some bs →
    ∃ p, keyColumn r newOrOld id = .ok (some p) ∧ r.mem.read p bs.length = bs
  fits : ValueFits t v
  size : newOrOld = true → t.info.fixed = false → r.varColumnSize id = .ok (v.getD []).length

/-- A call of `insertToBucket`, with the values of the key in the image. -/
structure Insertion where
  node : Nat
  record : DMLRecord
  newOrOld : Bool
  values : List (Option (List UInt8))

/-- The columns of a key are columns of the table, with their types. -/
def KeyOf (m : Meta.TableMeta) (key : Meta.UnionKeyMeta) : Prop :=
  ∀ c ∈ key.columnInfo, ∃ col, m.m_columns[c.columnId]? = some col ∧ c.type = col.m_columnType.code

/-- The record is of the table and has these values. -/
structure Insertion.Valid (m : Meta.TableMeta) (key : Meta.UnionKeyMeta) (i : Insertion) : Prop where
  table : i.record.meta' = m
  values : List.Forall₂ (fun c v => ∀ col, m.m_columns[c.columnId]? = some col →
    HasValue i.record i.newOrOld c.columnId col.m_columnType v) key.columnInfo i.values

/-- The old value of a column of variable length is as long as the new one. -/
def LengthKept (i : Insertion) (id : Nat) (t : Meta.ColumnType) (v : Option (List UInt8)) : Prop :=
  i.newOrOld = false → t.info.fixed = false → ∀ bs, v = some bs →
    i.record.varColumnSize id = .ok bs.length

/-- The bytes of `0.0` or, with the bit of the sign, of `-0.0`. -/
def zeroBytes (size : Nat) (negative : Bool) : List UInt8 :=
  List.replicate (size - 1) 0 ++ [if negative then 0x80 else 0]

/-- Values of a column are equal: to `compareKey`, `0.0 == -0.0`. -/
def SameValue (t : Meta.ColumnType) (v w : Option (List UInt8)) : Prop :=
  v = w ∨ (t = .T_FLOAT ∨ t = .T_DOUBLE) ∧
    ∃ b b', v = some (zeroBytes t.info.columnTypeSize b) ∧ w = some (zeroBytes t.info.columnTypeSize b')

def SameKey (m : Meta.TableMeta) (columns : List Meta.UniqueKeyTypePair)
    (values values' : List (Option (List UInt8))) : Prop :=
  List.Forall₂ (fun c p => ∀ col, m.m_columns[c.columnId]? = some col →
    SameValue col.m_columnType p.1 p.2) columns (values.zip values')

/-- The value is not `-0.0`, whose text is another one than that of `0.0`. -/
def NotNegativeZero (t : Meta.ColumnType) (v : Option (List UInt8)) : Prop :=
  t = .T_FLOAT ∨ t = .T_DOUBLE → v ≠ some (zeroBytes t.info.columnTypeSize true)

/-- The value of a key of one column: not null where the map holds the values, not of a type with a
    fixed slot that is hashed with a length of the record, and with a text that fits the buffer. -/
structure SingleSafe (my_fcvt : Fcvt) (col : ColumnMeta) (v : Option (List UInt8)) : Prop where
  notNull : (insertType col.m_columnType).isSome → v.isSome
  length : ∀ bs, v = some bs → col.m_columnType ∉
    [.T_BLOB, .T_BYTE, .T_GEOMETRY, .T_JSON, .T_XML]
  text : ∀ bs, v = some bs → col.m_columnType = .T_FLOAT ∨ col.m_columnType = .T_DOUBLE →
    (my_fcvt bs col.m_decimals).length < 256

structure Insertion.Safe (my_fcvt : Fcvt) (m : Meta.TableMeta) (key : Meta.UnionKeyMeta) (i : Insertion) :
    Prop where
  lengths : List.Forall₂ (fun c v => ∀ col, m.m_columns[c.columnId]? = some col →
    LengthKept i c.columnId col.m_columnType v) key.columnInfo i.values
  zeros : List.Forall₂ (fun c v => ∀ col, m.m_columns[c.columnId]? = some col →
    NotNegativeZero col.m_columnType v) key.columnInfo i.values
  single : ∀ c col v, key.columnInfo = [c] → m.m_columns[c.columnId]? = some col → i.values = [v] →
    SingleSafe my_fcvt col v

theorem SameValue.eq {t : Meta.ColumnType} {v w : Option (List UInt8)} (h : SameValue t v w)
    (hv : NotNegativeZero t v) (hw : NotNegativeZero t w) : v = w := by
  obtain rfl | ⟨hfloat, b, b', rfl, rfl⟩ := h
  · rfl
  · cases b with
    | true => exact absurd rfl (hv hfloat)
    | false =>
      cases b' with
      | true => exact absurd rfl (hw hfloat)
      | false => rfl

/-- Without `-0.0`, keys with equal values have the same bytes. -/
theorem SameKey.eq {m : Meta.TableMeta} {columns : List Meta.UniqueKeyTypePair}
    {vs ws : List (Option (List UInt8))} (h : SameKey m columns vs ws)
    (hcols : ∀ c ∈ columns, ∃ col, m.m_columns[c.columnId]? = some col)
    (hv : List.Forall₂ (fun c v => ∀ col, m.m_columns[c.columnId]? = some col →
      NotNegativeZero col.m_columnType v) columns vs)
    (hw : List.Forall₂ (fun c v => ∀ col, m.m_columns[c.columnId]? = some col →
      NotNegativeZero col.m_columnType v) columns ws) : vs = ws := by
  induction hv generalizing ws with
  | nil =>
    cases hw
    rfl
  | @cons c v columns vs hvone _ ih =>
    cases hw with
    | @cons _ w _ ws hwone hws =>
      obtain ⟨hone, hrest⟩ := List.forall₂_cons.mp h
      obtain ⟨col, hcol⟩ := hcols c (List.mem_cons_self ..)
      have hfirst : v = w := (hone col hcol).eq (hvone col hcol) (hwone col hcol)
      rw [hfirst, ih hrest (fun c hc => hcols c (List.mem_cons_of_mem _ hc)) hws]

/-! ## What the map holds of a value -/

def hashValue (hash : Nat) : Option (List UInt8) → Nat
  | none => hash
  | some bs => bkdrHash hash bs

def singleValue (my_fcvt : Fcvt) (col : ColumnMeta) : Option (List UInt8) → Nat
  | none => 0
  | some bs =>
    if (insertType col.m_columnType).isSome then LE.nat bs
    else if col.m_columnType = .T_FLOAT ∨ col.m_columnType = .T_DOUBLE then
      bkdrHash 0 (my_fcvt bs col.m_decimals)
    else bkdrHash 0 bs

def mapValue (my_fcvt : Fcvt) (m : Meta.TableMeta) (key : Meta.UnionKeyMeta)
    (values : List (Option (List UInt8))) : Nat :=
  match key.columnInfo, values with
  | [c], [v] => (m.m_columns[c.columnId]?).elim 0 fun col => singleValue my_fcvt col v
  | _, _ => values.foldl hashValue 0

theorem bkdrHash_lt {hash : Nat} (h : hash < 2 ^ 32) (bs : List UInt8) : bkdrHash hash bs < 2 ^ 32 := by
  induction bs generalizing hash with
  | nil => exact h
  | cons b bs ih => exact ih (Nat.mod_lt _ (by decide))

theorem foldl_hashValue_lt {hash : Nat} (h : hash < 2 ^ 32) (values : List (Option (List UInt8))) :
    values.foldl hashValue hash < 2 ^ 32 := by
  induction values generalizing hash with
  | nil => exact h
  | cons v values ih =>
    refine ih ?_
    cases v with
    | none => exact h
    | some bs => exact bkdrHash_lt h bs

theorem insertType_getD (t : Meta.ColumnType) : (insertType t).getD uint32_t = eraseType t := by
  cases t <;> rfl

theorem insertType_info {type : Meta.ColumnType} {t : VType} (h : insertType type = some t) :
    type.info.fixed = true ∧ type.info.columnTypeSize = t.size := by
  cases type <;> cases h <;> exact ⟨rfl, rfl⟩

private theorem code_mem_lengthTypes (t : Meta.ColumnType) :
    t.code ∈ lengthTypes.map Meta.ColumnType.code ↔ t ∈ lengthTypes := by
  cases t <;> decide

theorem fixed_of_lengthTypes {t : Meta.ColumnType} (h : t ∈ lengthTypes)
    (hnot : t ∉ [.T_BLOB, .T_BYTE, .T_GEOMETRY, .T_JSON, .T_XML]) : t.info.fixed = false := by
  revert h hnot
  cases t <;> decide

theorem eraseType_size (t : Meta.ColumnType) : 0 < (eraseType t).size ∧ (eraseType t).size ≤ 8 := by
  cases t <;> decide

section Values

variable {my_fcvt : Fcvt} {m : Meta.TableMeta} {key : Meta.UnionKeyMeta} {i : Insertion}
  {c : Meta.UniqueKeyTypePair} {col : ColumnMeta} {v : Option (List UInt8)}

theorem columnType_of_getElem? {r : DMLRecord} (hr : r.meta' = m) {id : Nat}
    (h : m.m_columns[id]? = some col) : r.columnType id = .ok col.m_columnType := by
  rw [columnType, hr, tableAt_of_getElem? h]
  rfl

theorem varColumnSize_eq {t : Meta.ColumnType} {id : Nat} {bs : List UInt8}
    (hv : HasValue i.record i.newOrOld id t (some bs)) (hkept : LengthKept i id t (some bs))
    (hvar : t.info.fixed = false) : i.record.varColumnSize id = .ok bs.length := by
  cases hnew : i.newOrOld with
  | true => exact hv.size hnew hvar
  | false => exact hkept hnew hvar bs rfl

theorem hashColumn_eq (hr : i.record.meta' = m) (hcol : m.m_columns[c.columnId]? = some col)
    (hv : HasValue i.record i.newOrOld c.columnId col.m_columnType v)
    (hkept : LengthKept i c.columnId col.m_columnType v) (hash : Nat) :
    hashColumn i.record i.newOrOld hash c = .ok (hashValue hash v) := by
  rw [hashColumn, columnType_of_getElem? hr hcol, Exec.ok_bind]
  cases v with
  | none =>
    rw [hv.null rfl]
    rfl
  | some bs =>
    obtain ⟨p, hp, hread⟩ := hv.value bs rfl
    rw [hp, Exec.ok_bind]
    by_cases hfixed : col.m_columnType.info.fixed = true
    · simp only [hfixed, if_true, ← hv.fits bs rfl hfixed, hread]
      rfl
    · simp only [hfixed, varColumnSize_eq hv hkept (Bool.eq_false_iff.mpr hfixed), Exec.ok_bind,
        hread]
      rfl

theorem foldlM_hashColumn (hr : i.record.meta' = m) {columns : List Meta.UniqueKeyTypePair}
    {values : List (Option (List UInt8))}
    (hcols : ∀ c ∈ columns, ∃ col, m.m_columns[c.columnId]? = some col)
    (hvalues : List.Forall₂ (fun c v => ∀ col, m.m_columns[c.columnId]? = some col →
      HasValue i.record i.newOrOld c.columnId col.m_columnType v) columns values)
    (hkept : List.Forall₂ (fun c v => ∀ col, m.m_columns[c.columnId]? = some col →
      LengthKept i c.columnId col.m_columnType v) columns values) (hash : Nat) :
    columns.foldlM (hashColumn i.record i.newOrOld) hash = .ok (values.foldl hashValue hash) := by
  induction hvalues generalizing hash with
  | nil => rfl
  | @cons c v columns values hv _ ih =>
    obtain ⟨hkept, hkepts⟩ := List.forall₂_cons.mp hkept
    obtain ⟨col, hcol⟩ := hcols c (List.mem_cons_self ..)
    rw [List.foldlM_cons, hashColumn_eq hr hcol (hv col hcol) (hkept col hcol), Exec.ok_bind,
      ih (fun c hc => hcols c (List.mem_cons_of_mem _ hc)) hkepts]
    rfl

/-- `getHash` of a kept value hashes its bytes, or the text of a floating point number. -/
theorem getHash_eq (hr : i.record.meta' = m) (hkey : key.columnInfo = [c])
    (hcol : m.m_columns[c.columnId]? = some col) (htype : c.type = col.m_columnType.code)
    {bs : List UInt8} (hv : HasValue i.record i.newOrOld c.columnId col.m_columnType (some bs))
    (hkept : LengthKept i c.columnId col.m_columnType (some bs))
    (hsafe : SingleSafe my_fcvt col (some bs)) :
    getHash my_fcvt i.record key i.newOrOld =
      .ok (if col.m_columnType = .T_FLOAT ∨ col.m_columnType = .T_DOUBLE then
        bkdrHash 0 (my_fcvt bs col.m_decimals) else bkdrHash 0 bs) := by
  obtain ⟨p, hp, hread⟩ := hv.value bs rfl
  have hvar := varColumnSize_eq hv hkept
  have hdecimals : tableAt i.record.meta'.m_columns c.columnId = .ok col := by
    rw [hr, tableAt_of_getElem? hcol]
  have htext (hfloat : col.m_columnType = .T_FLOAT ∨ col.m_columnType = .T_DOUBLE) :
      hashText my_fcvt bs col.m_decimals = .ok (bkdrHash 0 (my_fcvt bs col.m_decimals)) :=
    if_pos (hsafe.text bs rfl hfloat)
  simp only [getHash, hkey, hp, Exec.ok_bind, htype, code_mem_lengthTypes]
  by_cases hlength : col.m_columnType ∈ lengthTypes
  · have hnot : ¬(col.m_columnType = .T_FLOAT ∨ col.m_columnType = .T_DOUBLE) := by
      rintro (h | h) <;> rw [h] at hlength <;> revert hlength <;> decide
    rw [if_pos hlength, if_neg hnot,
      hvar (fixed_of_lengthTypes hlength (hsafe.length bs rfl)), Exec.ok_bind, hread]
    rfl
  rw [if_neg hlength]
  by_cases hfloat : col.m_columnType = .T_FLOAT
  · have hsize : bs.length = 4 := by
      have := hv.fits bs rfl (by rw [hfloat]; rfl)
      rwa [hfloat] at this
    rw [if_pos (by rw [hfloat]), if_pos (.inl hfloat), hdecimals, Exec.ok_bind, ← hsize, hread]
    exact htext (.inl hfloat)
  rw [if_neg (fun h => hfloat (Meta.ColumnType.code_injective h))]
  by_cases hdouble : col.m_columnType = .T_DOUBLE
  · have hsize : bs.length = 8 := by
      have := hv.fits bs rfl (by rw [hdouble]; rfl)
      rwa [hdouble] at this
    rw [if_pos (by rw [hdouble]), if_pos (.inr hdouble), hdecimals, Exec.ok_bind, ← hsize, hread]
    exact htext (.inr hdouble)
  rw [if_neg (fun h => hdouble (Meta.ColumnType.code_injective h)),
    if_neg (not_or.mpr ⟨hfloat, hdouble⟩), Meta.ColumnType.columnInfos_code, Exec.ok_bind]
  by_cases hfixed : col.m_columnType.info.fixed = true
  · rw [if_pos hfixed, columnType_of_getElem? hr hcol, Exec.ok_bind, ← hv.fits bs rfl hfixed, hread]
    rfl
  · rw [if_neg hfixed, hvar (Bool.eq_false_iff.mpr hfixed), Exec.ok_bind, hread]
    rfl

theorem getHash_null (hkey : key.columnInfo = [c])
    (hv : keyColumn i.record i.newOrOld c.columnId = .ok none) :
    getHash my_fcvt i.record key i.newOrOld = .ok 0 := by
  simp only [getHash, hkey, hv, Exec.ok_bind]
  rfl

/-- With a key of one column the node goes to the entry of the value. -/
theorem insertToBucket_single (hi : i.Valid m key) (hkey : key.columnInfo = [c])
    (hcol : m.m_columns[c.columnId]? = some col) (htype : c.type = col.m_columnType.code)
    (hvalues : i.values = [v]) (hsafe : i.Safe my_fcvt m key) (s : KeyBucket) :
    insertToBucket my_fcvt i.record i.node key i.newOrOld s =
        FIXED_INSERT (eraseType col.m_columnType) (some (singleValue my_fcvt col v)) i.node s ∧
      singleValue my_fcvt col v < 2 ^ (8 * (eraseType col.m_columnType).size) := by
  have hsingle := hsafe.single c col v hkey hcol hvalues
  have hall := hi.values
  have hlengths := hsafe.lengths
  rw [hkey, hvalues] at hall hlengths
  have hv := (List.forall₂_cons.mp hall).1 col hcol
  have hkept := (List.forall₂_cons.mp hlengths).1 col hcol
  rw [← insertType_getD]
  cases hinsert : insertType col.m_columnType with
  | some t =>
    -- the map holds the value itself
    obtain ⟨bs, rfl⟩ := Option.isSome_iff_exists.mp (hsingle.notNull (by rw [hinsert]; rfl))
    obtain ⟨p, hp, hread⟩ := hv.value bs rfl
    obtain ⟨hfixed, hsize⟩ := insertType_info hinsert
    have hlen : bs.length = t.size := by rw [hv.fits bs rfl hfixed, hsize]
    have hvalue : singleValue my_fcvt col (some bs) = LE.nat bs := by simp [singleValue, hinsert]
    rw [hvalue, Option.getD_some]
    constructor
    · simp only [insertToBucket, hkey, hp, columnType_of_getElem? hi.table hcol, hinsert,
        Exec.ok_bind, Option.map_some, RawMemory.readWord, ← hlen, hread]
    · have hlt := LE.nat_lt bs
      rwa [hlen, show (256 : Nat) = 2 ^ 8 from rfl, ← Nat.pow_mul] at hlt
  | none =>
    have hhash : ∃ p, keyColumn i.record i.newOrOld c.columnId = .ok p ∧
        getHash my_fcvt i.record key i.newOrOld = .ok (singleValue my_fcvt col v) := by
      cases v with
      | none => exact ⟨none, hv.null rfl, getHash_null hkey (hv.null rfl)⟩
      | some bs =>
        obtain ⟨p, hp, _⟩ := hv.value bs rfl
        refine ⟨some p, hp, ?_⟩
        rw [getHash_eq hi.table hkey hcol htype hv hkept hsingle]
        simp [singleValue, hinsert]
    obtain ⟨p, hp, hhash⟩ := hhash
    constructor
    · simp [insertToBucket, hkey, hp, columnType_of_getElem? hi.table hcol, hinsert, hhash]
    · have hlt (bs : List UInt8) : bkdrHash 0 bs < 2 ^ 32 := bkdrHash_lt (by decide) bs
      cases v with
      | none => exact Nat.two_pow_pos _
      | some bs =>
        simp only [singleValue, hinsert, Option.isSome_none, Bool.false_eq_true, if_false]
        split
        · exact hlt _
        · exact hlt _

theorem insertToBucket_eq (hkey : KeyOf m key) (hi : i.Valid m key) (hsafe : i.Safe my_fcvt m key)
    {t : VType} (ht : mapType m key = .ok t) (s : KeyBucket) :
    insertToBucket my_fcvt i.record i.node key i.newOrOld s =
        FIXED_INSERT t (some (mapValue my_fcvt m key i.values)) i.node s ∧
      mapValue my_fcvt m key i.values < 2 ^ (8 * t.size) := by
  have hcols : ∀ c ∈ key.columnInfo, ∃ col, m.m_columns[c.columnId]? = some col := by
    intro c hc
    obtain ⟨col, hcol, _⟩ := hkey c hc
    exact ⟨col, hcol⟩
  have hunion : getUnionKeyHash i.record key i.newOrOld = .ok (i.values.foldl hashValue 0) :=
    foldlM_hashColumn hi.table hcols hi.values hsafe.lengths 0
  have hlen := hi.values.length_eq
  obtain hnil | ⟨c, hone⟩ | ⟨c, d, rest, hmany⟩ : key.columnInfo = [] ∨ (∃ c, key.columnInfo = [c]) ∨
      ∃ c d rest, key.columnInfo = c :: d :: rest := by
    obtain _ | ⟨c, _ | ⟨d, rest⟩⟩ := key.columnInfo
    · exact .inl rfl
    · exact .inr (.inl ⟨c, rfl⟩)
    · exact .inr (.inr ⟨c, d, rest, rfl⟩)
  · rw [mapType, hnil] at ht
    cases ht
    simp only [insertToBucket, mapValue, hnil, hunion, Exec.ok_bind, true_and]
    exact foldl_hashValue_lt (by decide) i.values
  · obtain ⟨col, hcol, htype⟩ := hkey c (by rw [hone]; exact List.mem_singleton_self c)
    obtain ⟨v, hvalues⟩ : ∃ v, i.values = [v] := by
      rw [hone] at hlen
      exact List.length_eq_one_iff.mp hlen.symm
    have hsingle := insertToBucket_single hi hone hcol htype hvalues hsafe s
    have hvalue : mapValue my_fcvt m key i.values = singleValue my_fcvt col v := by
      simp [mapValue, hone, hvalues, hcol]
    simp only [mapType, hone, tableAt_of_getElem? hcol, Exec.ok_bind] at ht
    cases ht
    rw [hvalue]
    exact hsingle
  · rw [mapType, hmany] at ht
    cases ht
    simp only [insertToBucket, mapValue, hmany, hunion, Exec.ok_bind, true_and]
    exact foldl_hashValue_lt (by decide) i.values

end Values

/-! ## Runs -/

def insertAll (my_fcvt : Fcvt) (key : Meta.UnionKeyMeta) (steps : List Insertion) (s : KeyBucket) :
    Exec KeyBucket :=
  steps.foldlM (fun s i => do
    return (← insertToBucket my_fcvt i.record i.node key i.newOrOld s).2) s

theorem mapType_ok {m : Meta.TableMeta} {key : Meta.UnionKeyMeta} (hkey : KeyOf m key) :
    ∃ t, mapType m key = .ok t ∧ 0 < t.size ∧ t.size ≤ 8 := by
  unfold mapType
  unfold KeyOf at hkey
  generalize key.columnInfo = columns at hkey ⊢
  obtain _ | ⟨c, _ | ⟨d, rest⟩⟩ := columns
  · exact ⟨_, rfl, by decide⟩
  · obtain ⟨col, hcol, -⟩ := hkey c (List.mem_singleton_self c)
    refine ⟨_, ?_, eraseType_size col.m_columnType⟩
    dsimp only
    rw [tableAt_of_getElem? hcol]
    rfl
  · exact ⟨_, rfl, by decide⟩

theorem chains_insertAll {my_fcvt : Fcvt} {m : Meta.TableMeta} {key : Meta.UnionKeyMeta} (hkey : KeyOf m key)
    (ht : mapType m key = .ok t) {steps : List Insertion} (hc : Chains t log s)
    (hnodes : (log.map Prod.fst ++ steps.map Insertion.node).Nodup)
    (hvalid : ∀ i ∈ steps, i.Valid m key) (hsafe : ∀ i ∈ steps, i.Safe my_fcvt m key) :
    ∃ s', insertAll my_fcvt key steps s = .ok s' ∧
      Chains t (log ++ steps.map fun i => (i.node, mapValue my_fcvt m key i.values)) s' := by
  induction steps generalizing log s with
  | nil => exact ⟨s, rfl, by simpa using hc⟩
  | cons i steps ih =>
    obtain ⟨hinsert, hvalue⟩ := insertToBucket_eq hkey (hvalid i (List.mem_cons_self ..))
      (hsafe i (List.mem_cons_self ..)) ht s
    have hfresh : i.node ∉ log.map Prod.fst := by
      intro hmem
      exact List.disjoint_of_nodup_append hnodes hmem (by simp)
    obtain ⟨prev, s₁, hfixed, hc₁⟩ := chains_insert hc hfresh hvalue
    have hnodes₁ : ((log ++ [(i.node, mapValue my_fcvt m key i.values)]).map Prod.fst ++
        steps.map Insertion.node).Nodup := by
      simpa using hnodes
    obtain ⟨s', hrest, hc'⟩ := ih hc₁ hnodes₁ (fun i hi => hvalid i (List.mem_cons_of_mem _ hi))
      (fun i hi => hsafe i (List.mem_cons_of_mem _ hi))
    refine ⟨s', ?_, by simpa using hc'⟩
    rw [insertAll, List.foldlM_cons, hinsert, hfixed]
    exact hrest

/-- Nodes whose keys have equal values are in the same entry, and erasing the heads in any order
    erases an entry with each. -/
theorem conflicts_complete_and_clean {my_fcvt : Fcvt} {m : Meta.TableMeta} {key : Meta.UnionKeyMeta}
    (hkey : KeyOf m key) {steps : List Insertion} (hnodes : (steps.map Insertion.node).Nodup)
    (hvalid : ∀ i ∈ steps, i.Valid m key) (hsafe : ∀ i ∈ steps, i.Safe my_fcvt m key)
    (nodes : Nat → BlockListNode) :
    ∃ s, insertAll my_fcvt key steps ⟨[], nodes⟩ = .ok s ∧
      (∀ a ∈ steps, ∀ b ∈ steps, SameKey m key.columnInfo a.values b.values →
        SameEntry s a.node b.node) ∧
      ∀ heads : List Nat,
        heads.Perm ((steps.map Insertion.node).filter fun n => (s.nodes n).type = .HEAD) →
        Erases m key heads s := by
  obtain ⟨t, ht, hsize⟩ := mapType_ok hkey
  obtain ⟨s, hrun, hc⟩ := chains_insertAll hkey ht (chains_nil nodes) (by simpa using hnodes) hvalid
    hsafe
  rw [List.nil_append] at hc
  have hlogged {i : Insertion} (hi : i ∈ steps) : (i.node, mapValue my_fcvt m key i.values) ∈
      steps.map fun i => (i.node, mapValue my_fcvt m key i.values) := List.mem_map.mpr ⟨i, hi, rfl⟩
  refine ⟨s, hrun, ?_, ?_⟩
  · intro a ha b hb hsame
    have hcols : ∀ c ∈ key.columnInfo, ∃ col, m.m_columns[c.columnId]? = some col := by
      intro c hc
      obtain ⟨col, hcol, -⟩ := hkey c hc
      exact ⟨col, hcol⟩
    have hab := hsame.eq hcols (hsafe a ha).zeros (hsafe b hb).zeros
    obtain ⟨head, hget, hina⟩ := hc.entry (hlogged ha)
    obtain ⟨head', hget', hinb⟩ := hc.entry (hlogged hb)
    rw [← hab, hget] at hget'
    obtain rfl := Option.some.inj hget'
    exact ⟨_, head, hget, hina, hinb⟩
  · intro heads hperm
    have hmap : (steps.map fun i => (i.node, mapValue my_fcvt m key i.values)).map Prod.fst =
        steps.map Insertion.node := List.map_map ..
    refine (heads_of_chains hc hsize ?_).erases ht
    rw [hmap]
    exact hperm

/-! ## Two tables -/

def oneColumn (type : Meta.ColumnType) : Meta.TableMeta :=
  Meta.TableMeta.buildColumnOffsetList { m_columns := [{ m_columnType := type, m_columnName := "a" }] }

def keyOfColumn (type : Meta.ColumnType) : Meta.UnionKeyMeta :=
  { size := 4, fixed := type.info.fixed, keyType := .UNIQUE_KEY, keyId := 0, varColumnCount := 0,
    columnInfo := [⟨type.code, 0⟩] }

/-- A memory that begins with the head of a record of some type, and the identifier of its table. -/
def memoryOf (type : RecordType) (bytes : List UInt8) : RawMemory := fun a =>
  (List.replicate 5 0 ++ [38, UInt8.ofNat type.code] ++ List.replicate 39 0 ++ bytes).getD a 0

/-- A record of such a table without old values. -/
def insertRecord (type : Meta.ColumnType) (bytes : List UInt8) : DMLRecord :=
  { mem := memoryOf .R_INSERT bytes, meta' := oneColumn type, tableMetaID := 0, nullBitmap := 46,
    columns := 47, varLengthColumns := 47 + fixedSize [type] }

def updateRecord : DMLRecord :=
  { mem := memoryOf .R_UPDATE
      [1, 8, 0, 0, 0, 9, 0, 0, 0, 0x61, 1, 1, 8, 0, 0, 0, 10, 0, 0, 0, 0x61, 0x62],
    meta' := oneColumn .T_STRING, tableMetaID := 0, nullBitmap := 46, columns := 47,
    varLengthColumns := 47, oldColumns := some 58, oldVarLengthColumns := some 58,
    updatedBitmap := some 56, updatedNullBitmap := some 57 }

def oldText : Insertion := ⟨1, updateRecord, false, [some [0x61, 0x62]]⟩

def newText : Insertion :=
  ⟨2, insertRecord .T_STRING [1, 8, 0, 0, 0, 10, 0, 0, 0, 0x61, 0x62], true, [some [0x61, 0x62]]⟩

def numberRecord : DMLRecord := insertRecord .T_INT32 [1, 7, 0, 0, 0, 4, 0, 0, 0]

def newNumber (node : Nat) : Insertion := ⟨node, numberRecord, true, [some [7, 0, 0, 0]]⟩

theorem keyOf_oneColumn (type : Meta.ColumnType) : KeyOf (oneColumn type) (keyOfColumn type) := by
  intro c hc
  obtain rfl := List.mem_singleton.mp hc
  exact ⟨_, rfl, rfl⟩

theorem valid_oneColumn {type : Meta.ColumnType} {i : Insertion} {bs : List UInt8} (p : Nat)
    (htable : i.record.meta' = oneColumn type) (hvalues : i.values = [some bs])
    (hp : keyColumn i.record i.newOrOld 0 = .ok (some p)) (hread : i.record.mem.read p bs.length = bs)
    (hfits : type.info.fixed = true → bs.length = type.info.columnTypeSize)
    (hsize : i.newOrOld = true → type.info.fixed = false →
      i.record.varColumnSize 0 = .ok bs.length) : i.Valid (oneColumn type) (keyOfColumn type) := by
  refine ⟨htable, ?_⟩
  rw [hvalues]
  refine .cons ?_ .nil
  intro col hcol
  obtain rfl := Option.some.inj hcol
  constructor
  · intro h
    cases h
  · intro bs' hbs
    obtain rfl := Option.some.inj hbs
    exact ⟨p, hp, hread⟩
  · intro bs' hbs
    obtain rfl := Option.some.inj hbs
    exact hfits
  · exact hsize

theorem valid_newNumber (node : Nat) :
    (newNumber node).Valid (oneColumn .T_INT32) (keyOfColumn .T_INT32) := by
  have hcolumn : keyColumn numberRecord true 0 = .ok (some 47) := rfl
  have hread : numberRecord.mem.read 47 4 = [7, 0, 0, 0] := rfl
  exact valid_oneColumn 47 rfl rfl hcolumn hread (fun _ => rfl) (fun _ h => by cases h)

theorem safe_newNumber (my_fcvt : Fcvt) (node : Nat) :
    (newNumber node).Safe my_fcvt (oneColumn .T_INT32) (keyOfColumn .T_INT32) := by
  constructor
  · refine .cons ?_ .nil
    intro _ _ hnew
    cases hnew
  · refine .cons ?_ .nil
    intro col hcol
    obtain rfl := Option.some.inj hcol
    rintro (h | h) <;> cases h
  · intro c col v hkey hcol hvalues
    obtain rfl := List.singleton_inj.mp hkey
    obtain rfl := Option.some.inj hcol
    obtain rfl := List.singleton_inj.mp hvalues
    refine ⟨fun _ => rfl, fun _ _ => by decide, ?_⟩
    rintro _ _ (h | h) <;> cases h

theorem conflicts_of_numbers :
    ∃ s, insertAll (fun _ _ => []) (keyOfColumn .T_INT32) [newNumber 1, newNumber 2]
        ⟨[], fun _ => ⟨0, .UNUSED⟩⟩ = .ok s ∧
      (∀ a ∈ [newNumber 1, newNumber 2], ∀ b ∈ [newNumber 1, newNumber 2],
        SameKey (oneColumn .T_INT32) (keyOfColumn .T_INT32).columnInfo a.values b.values →
          SameEntry s a.node b.node) ∧
      ∀ heads : List Nat,
        heads.Perm (([newNumber 1, newNumber 2].map Insertion.node).filter
          fun n => (s.nodes n).type = .HEAD) →
        Erases (oneColumn .T_INT32) (keyOfColumn .T_INT32) heads s := by
  refine conflicts_complete_and_clean (keyOf_oneColumn .T_INT32) (by decide) ?_ ?_ _
  · intro i hi
    simp only [List.mem_cons, List.not_mem_nil, or_false] at hi
    obtain rfl | rfl := hi <;> exact valid_newNumber _
  · intro i hi
    simp only [List.mem_cons, List.not_mem_nil, or_false] at hi
    obtain rfl | rfl := hi <;> exact safe_newNumber _ _

/-- The text is hashed with the length of the new one; and a null is read before it is asked for. -/
theorem conflicts_missed :
    (DMLRecord.load oldText.record.mem (oneColumn .T_STRING) = .ok oldText.record ∧
      DMLRecord.load newText.record.mem (oneColumn .T_STRING) = .ok newText.record ∧
      oldText.Valid (oneColumn .T_STRING) (keyOfColumn .T_STRING) ∧
      newText.Valid (oneColumn .T_STRING) (keyOfColumn .T_STRING) ∧
      oldText.values = newText.values ∧
      ∃ s, insertAll (fun _ _ => []) (keyOfColumn .T_STRING) [oldText, newText]
        ⟨[], fun _ => ⟨0, .UNUSED⟩⟩ = .ok s ∧ ¬SameEntry s 1 2) ∧
    insertToBucket (fun _ _ => []) (insertRecord .T_INT32 [0, 0, 0, 0, 0, 4, 0, 0, 0]) 1
      (keyOfColumn .T_INT32) true ⟨[], fun _ => ⟨0, .UNUSED⟩⟩ = .error .nullDeref := by
  refine ⟨⟨rfl, rfl, ?_, ?_, rfl, _, rfl, ?_⟩, rfl⟩
  · exact valid_oneColumn 66 rfl rfl rfl rfl (fun h => by cases h) (fun h => by cases h)
  · exact valid_oneColumn 55 rfl rfl rfl rfl (fun h => by cases h) (fun _ _ => rfl)
  · rintro ⟨value, head, -, h1, h2⟩
    -- both nodes are heads
    cases h1 with
    | head h =>
      cases h2 with
      | next htype _ => cases htype
    | next htype _ => cases htype

end DBStream.Native.REPLICATOR
