import DBStream.Native.MetaDataCollection
import DBStream.Spec.TableIdNodes
import Mathlib.Data.Nat.Log

/-!
# The tree of the table ids as a map

The metas that are put into the tree got their ids from timelines: a new table has the next table
number, a new version of a table the version its timeline counts (`Handed`).  As long as numbers
stay below `2 ^ 31` and no version wraps, `put` keeps for every number the metas put under it
(`Inv`).  A number that was not given away can still be answered by the wraps of another one, which
fails an assertion.
-/

namespace DBStream.Native.Meta

variable {T : Type}

/-! ## Ids -/

theorem tableVersion_eq (x : Nat) : tableVersion x = x % 65536 :=
  Nat.and_two_pow_sub_one_eq_mod x 16

theorem tableID_eq (x : Nat) : tableID x = x / 65536 % 2 ^ 48 := by
  have hmask : (0xffffffffffff0000 : Nat) >>> 16 = 2 ^ 48 - 1 := by decide
  rw [tableID, Nat.shiftRight_and_distrib, hmask, Nat.and_two_pow_sub_one_eq_mod,
    Nat.shiftRight_eq_div_pow]

private theorem genTableId_eq {n v : Nat} (hn : n < 2 ^ 48) (hv : v < 2 ^ 16) :
    genTableId n v = n * 65536 + v := by
  have hlt : n <<< 16 < 2 ^ 64 := by
    omega
  rw [genTableId, Nat.mod_eq_of_lt hlt, ← Nat.shiftLeft_add_eq_or_of_lt hv, Nat.shiftLeft_eq]

private theorem tableID_genTableId {n v : Nat} (hn : n < 2 ^ 48) (hv : v < 2 ^ 16) :
    tableID (genTableId n v) = n := by
  rw [tableID_eq, genTableId_eq hn hv]
  omega

/-! ## Histories -/

variable [HasMetaId T]

/-- The timelines of the tables and the metas that were put into the tree, oldest first.  A put that
    a timeline refuses counts a version all the same. -/
inductive Handed : List (MetaTimeline T) → List T → Prop where
  | start : Handed [] []
  | newTable {ts ms m m' cp r t} : Handed ts ms →
      (MetaTimeline.create (ts.length + 1)).put (some m) cp = .ok (r, some m', t) →
      Handed (ts ++ [t]) (ms ++ [m'])
  | newVersion {ts ms m m' cp t t'} (i : Nat) : Handed ts ms → ts[i]? = some t →
      t.put (some m) cp = .ok (0, some m', t') → Handed (ts.set i t') (ms ++ [m'])
  | refused {ts ms m m' cp t t'} (i : Nat) : Handed ts ms → ts[i]? = some t →
      t.put (some m) cp = .ok (-1, m', t') → Handed (ts.set i t') ms
  | disabled {ts ms cp r t t'} (i : Nat) : Handed ts ms → ts[i]? = some t →
      t.disableCurrent cp = .ok (r, t') → Handed (ts.set i t') ms

/-- Each version of a table that is put has a greater version number than those before. -/
def VersionsIncrease (ms : List T) : Prop :=
  ms.Pairwise fun a b =>
    tableID (m_id a) = tableID (m_id b) → tableVersion (m_id a) < tableVersion (m_id b)

/-- The meta that was put under an id. -/
def putUnder (ms : List T) (id : Nat) : Option T := ms.find? fun m => m_id m = id

/-- The meta of the version before the one put under an id. -/
def putBefore (ms : List T) (id : Nat) : Option T :=
  if (putUnder ms id).isSome then
    (ms.filter fun m => tableID (m_id m) = tableID id ∧ m_id m < id).getLast?
  else none

namespace Handed

variable {ts : List (MetaTimeline T)} {ms : List T}

theorem put_id {t t' : MetaTimeline T} {m : T} {m' : Option T} {cp : Nat} {r : Int}
    (h : t.put (some m) cp = .ok (r, m', t')) :
    t'.m_id = t.m_id ∧ m' = some (setId m (genTableId t.m_id t.m_version)) ∧
      t'.m_version = (t.m_version + 1) % 2 ^ 16 := by
  simp only [MetaTimeline.put, MetaTimeline.assignId, MetaTimeline.link] at h
  split at h
  · cases h
    simp
  · cases h
  · split at h
    · cases h
      simp
    · cases h
      simp

private theorem disable_id {t t' : MetaTimeline T} {cp : Nat} {r : Int}
    (h : t.disableCurrent cp = .ok (r, t')) : t'.m_id = t.m_id ∧ t'.m_version = t.m_version := by
  simp only [MetaTimeline.disableCurrent, MetaTimeline.put, MetaTimeline.assignId,
    MetaTimeline.link] at h
  obtain ⟨⟨_, _, _⟩, hput, hret⟩ := Exec.of_bind h
  cases hret
  split at hput
  · cases hput
    simp
  · cases hput
  · split at hput
    · cases hput
      simp
    · cases hput
      simp

theorem timeline (h : Handed ts ms) {i : Nat} {t : MetaTimeline T} (hi : ts[i]? = some t) :
    t.m_id = i + 1 ∧ t.m_version < 2 ^ 16 := by
  have hset : ∀ {ts : List (MetaTimeline T)} {j : Nat} {t₀ t' : MetaTimeline T},
      ts[j]? = some t₀ → t'.m_id = t₀.m_id → t'.m_version < 2 ^ 16 →
      (∀ {i t}, ts[i]? = some t → t.m_id = i + 1 ∧ t.m_version < 2 ^ 16) →
      ∀ {i t}, (ts.set j t')[i]? = some t → t.m_id = i + 1 ∧ t.m_version < 2 ^ 16 := by
    intro ts j t₀ t' hj hid hv ih i t hi
    by_cases hji : j = i
    · subst hji
      have hlt := (List.getElem?_eq_some_iff.mp hj).1
      rw [List.getElem?_set_self hlt] at hi
      cases hi
      exact ⟨hid.trans (ih hj).1, hv⟩
    · rw [List.getElem?_set_ne hji] at hi
      exact ih hi
  induction h generalizing i t with
  | start => simp at hi
  | newTable h hput ih =>
    obtain ⟨hid, _, hv⟩ := put_id hput
    rw [List.getElem?_append] at hi
    split at hi
    · exact ih hi
    · rw [List.getElem?_singleton] at hi
      split at hi
      · rename_i hge hz
        cases hi
        exact ⟨by simp only [hid, MetaTimeline.create]; omega, hv ▸ Nat.mod_lt _ (by norm_num)⟩
      · cases hi
  | newVersion j h hj hput ih =>
    obtain ⟨hid, _, hv⟩ := put_id hput
    exact hset hj hid (hv ▸ Nat.mod_lt _ (by norm_num)) ih hi
  | refused j h hj hput ih =>
    obtain ⟨hid, _, hv⟩ := put_id hput
    exact hset hj hid (hv ▸ Nat.mod_lt _ (by norm_num)) ih hi
  | disabled j h hj hput ih =>
    obtain ⟨hid, hv⟩ := disable_id hput
    exact hset hj hid (hv ▸ (ih hj).2) ih hi

theorem id_of_put {t t' : MetaTimeline T} {m m' : T} {cp n : Nat} {r : Int} (hn : t.m_id = n)
    (hlt : n < 2 ^ 48) (hv : t.m_version < 2 ^ 16) (h : t.put (some m) cp = .ok (r, some m', t')) :
    tableID (m_id m') = n := by
  obtain ⟨_, hm', _⟩ := put_id h
  cases hm'
  rw [HasMetaId.m_id_setId, hn, tableID_genTableId hlt hv]

theorem id_of_create {t' : MetaTimeline T} {m m' : T} {cp n : Nat} {r : Int} (hlt : n < 2 ^ 48)
    (h : (MetaTimeline.create n : MetaTimeline T).put (some m) cp = .ok (r, some m', t')) :
    tableID (m_id m') = n :=
  id_of_put rfl hlt (Nat.two_pow_pos 16) h

theorem numbers (h : Handed ts ms) (hlen : ts.length < 2 ^ 48) (n : Nat) :
    (∃ m ∈ ms, tableID (m_id m) = n) ↔ 1 ≤ n ∧ n ≤ ts.length := by
  -- one more meta, under `k`
  have hsnoc : ∀ {ms : List T} {m' : T} {k c c' : Nat}, tableID (m_id m') = k →
      (k = c + 1 ∧ c' = c + 1 ∨ (1 ≤ k ∧ k ≤ c) ∧ c' = c) →
      ((∃ m ∈ ms, tableID (m_id m) = n) ↔ 1 ≤ n ∧ n ≤ c) →
      ((∃ m ∈ ms ++ [m'], tableID (m_id m) = n) ↔ 1 ≤ n ∧ n ≤ c') := by
    intro ms m' k c c' hk hc ih
    simp only [List.mem_append, List.mem_singleton, or_and_right, exists_or, exists_eq_left, ih, hk]
    clear ih
    omega
  induction h with
  | start =>
    simp
    omega
  | newTable h hput ih =>
    simp only [List.length_append, List.length_singleton] at hlen ⊢
    exact hsnoc (id_of_create hlen hput) (.inl ⟨rfl, rfl⟩) (ih (by omega))
  | newVersion i h hi hput ih =>
    rw [List.length_set] at hlen ⊢
    have hlt := (List.getElem?_eq_some_iff.mp hi).1
    obtain ⟨hid, hv⟩ := h.timeline hi
    exact hsnoc (id_of_put hid (by omega) hv hput) (.inr ⟨by omega, rfl⟩) (ih hlen)
  | refused i h hi hput ih =>
    rw [List.length_set] at hlen ⊢
    exact ih hlen
  | disabled i h hi hput ih =>
    rw [List.length_set] at hlen ⊢
    exact ih hlen

end Handed

theorem Handed.id_lt {ts : List (MetaTimeline T)} {ms : List T} (h : Handed ts ms) :
    ∀ m ∈ ms, m_id m < 2 ^ 64 := by
  have hsnoc : ∀ {ms : List T} {t t' : MetaTimeline T} {m m' : T} {cp : Nat} {r : Int},
      t.m_version < 2 ^ 16 → t.put (some m) cp = .ok (r, some m', t') →
      (∀ m ∈ ms, m_id m < 2 ^ 64) → ∀ m ∈ ms ++ [m'], m_id m < 2 ^ 64 := by
    intro ms t t' m m' cp r hv hput ih a ha
    obtain hms | hlast := List.mem_append.mp ha
    · exact ih a hms
    · obtain ⟨_, hm', _⟩ := put_id hput
      rw [List.mem_singleton.mp hlast]
      cases hm'
      rw [HasMetaId.m_id_setId]
      exact Nat.or_lt_two_pow (Nat.mod_lt _ (Nat.two_pow_pos 64)) (by omega)
  induction h with
  | start => simp
  | newTable h hput ih => exact hsnoc (Nat.two_pow_pos 16) hput ih
  | newVersion i h hi hput ih => exact hsnoc (h.timeline hi).2 hput ih
  | refused i h hi hput ih => exact ih
  | disabled i h hi hput ih => exact ih

/-! ## Puts into the tree -/

/-- The metas under a table number, newest first. -/
def wrapsOf (ms : List T) (n : Nat) : List T :=
  (ms.filter fun m => tableID (m_id m) = n).reverse

theorem wrapsOf_snoc (ms : List T) (m : T) :
    wrapsOf (ms ++ [m]) = Function.update (wrapsOf ms) (tableID (m_id m))
      (m :: wrapsOf ms (tableID (m_id m))) := by
  funext n
  by_cases hn : n = tableID (m_id m)
  · subst hn
    simp [wrapsOf]
  · simp [wrapsOf, Function.update_of_ne hn, Ne.symm hn]

theorem mem_wrapsOf {ms : List T} {m : T} {n : Nat} :
    m ∈ wrapsOf ms n ↔ m ∈ ms ∧ tableID (m_id m) = n := by
  simp [wrapsOf]

/-- The tree of the metas under the numbers up to `c`. -/
structure Inv (c : Nat) (ms : List T) (t : TableIdTree T) : Prop where
  le : t.level = 0 ∨ 512 ^ t.level ≤ c
  lt : c < 512 ^ (t.level + 1)
  holds : IdNode.Holds t.level 0 t.m_root (wrapsOf ms)

theorem inv_create : Inv 0 [] (TableIdTree.create : TableIdTree T) where
  le := .inl rfl
  lt := by simp [TableIdTree.create]
  holds := IdNode.holds_empty fun _ _ => rfl

namespace Inv

variable {c : Nat} {ms : List T} {t : TableIdTree T}

theorem level_le (h : Inv c ms t) (hc : c < 2 ^ 31) : t.level ≤ 3 := by
  by_contra hlt
  have hpow : 512 ^ 4 ≤ 512 ^ t.level := Nat.pow_le_pow_right (by norm_num) (by omega)
  have hle := h.le.resolve_left (by omega)
  omega

theorem log_eq (h : Inv c ms t) : Nat.log 512 c = t.level := by
  obtain hzero | hle := h.le
  · have := h.lt
    rw [hzero] at this ⊢
    exact Nat.log_of_lt (by simpa using this)
  · exact Nat.log_eq_of_pow_le_of_lt_pow hle h.lt

theorem wrapsOf_nil {n : Nat} (hnum : ∀ m ∈ ms, tableID (m_id m) ≤ c) (hn : c < n) :
    wrapsOf ms n = [] := by
  apply List.eq_nil_iff_forall_not_mem.mpr
  intro m hm
  obtain ⟨hms, rfl⟩ := mem_wrapsOf.mp hm
  exact absurd (hnum m hms) (by omega)

/-- The tree grows until the id has a slot. -/
theorem grow (h : Inv c ms t) (hnum : ∀ m ∈ ms, tableID (m_id m) ≤ c) {n : Nat} (hn : n ≤ c + 1)
    (hlt : n < 2 ^ 31) (fuel : Nat) :
    ∃ t', TableIdTree.grow n (fuel + 2) t = .ok t' ∧ n < 512 ^ (t'.level + 1) ∧
      Inv (max c n) ms t' := by
  obtain ⟨level, root⟩ := t
  obtain ⟨hle, hclt, hholds⟩ := h
  simp only at hle hclt hholds
  have hstart : IdNode.startId level root = 0 := by
    cases level with
    | zero => exact hholds.1
    | succ level => exact hholds.1
  have hpos : 0 < 512 ^ level := Nat.pow_pos (by norm_num)
  have hslot : ∀ l, slotOf 0 l n = n / 512 ^ l % 65536 := fun l =>
    slotOf_eq l (Nat.zero_le n) (by omega)
  by_cases hin : n < 512 ^ level * 512
  · -- the root is high enough
    have hsmall : n / 512 ^ level < 512 := Nat.div_lt_of_lt_mul hin
    refine ⟨⟨level, root⟩, ?_, hin, ⟨?_, max_lt hclt hin, hholds⟩⟩
    · simp only [TableIdTree.grow, hstart, hslot]
      rw [if_neg (Nat.not_le.mpr (lt_of_le_of_lt (Nat.mod_le _ _) hsmall))]
    · exact hle.imp_right fun h => le_trans h (le_max_left c n)
  · -- the number is the first behind the range, child 1 of the new root
    have hn' : n = 512 ^ level * 512 := by omega
    have hfull : n / 512 ^ level = 512 := by
      rw [hn', Nat.mul_div_cancel_left _ hpos]
    have hone : n / 512 ^ (level + 1) = 1 := by
      rw [Nat.pow_succ, ← hn']
      exact Nat.div_self (by omega)
    have htop : n < 512 ^ (level + 1 + 1) := by
      omega
    let root' : IdNode T (level + 1) :=
      Node.setChild (IdNode.empty (level + 1) 0 : IdNode T (level + 1)) 0 (some root)
    refine ⟨⟨level + 1, root'⟩, ?_, ?_, ⟨.inr ?_, ?_, rfl, ?_⟩⟩
    · simp only [TableIdTree.grow, hstart, hslot, hfull]
      rw [if_pos (by norm_num)]
      have hslot' : slotOf (IdNode.startId (level + 1) root') (level + 1) n = 1 := by
        rw [show IdNode.startId (level + 1) root' = 0 from rfl, hslot, hone]
      exact if_neg (by rw [hslot']; norm_num)
    · exact htop
    · rw [Nat.pow_succ, ← hn']
      exact le_max_right c n
    · have hcn : c < n := by omega
      exact max_lt (hcn.trans htop) htop
    · intro cid hcid
      by_cases hzero : cid = 0
      · subst hzero
        constructor
        · intro h
          cases h
        · intro c' hc'
          cases hc'
          simpa using hholds
      · constructor
        · intro _ r _
          -- the other children start behind every number there is
          apply wrapsOf_nil hnum
          have := Nat.mul_le_mul_right (512 ^ (level + 1)) (show 1 ≤ cid by omega)
          omega
        · intro c' hc'
          have : (Node.setChild (IdNode.empty (level + 1) 0 : Node (Option (IdNode T level))) 0
            (some root)).child cid = none := by simp [Node.setChild, hzero, IdNode.empty]
          exact absurd (this.symm.trans hc') (by simp)

theorem put (h : Inv c ms t) (hnum : ∀ m ∈ ms, tableID (m_id m) ≤ c) {m : T}
    (hn : tableID (m_id m) ≤ c + 1) (hlt : tableID (m_id m) < 2 ^ 31) (hc : c < 2 ^ 31)
    (hver : ∀ a ∈ ms, tableID (m_id a) = tableID (m_id m) →
      tableVersion (m_id a) < tableVersion (m_id m)) :
    ∃ t', t.put m = .ok t' ∧ Inv (max c (tableID (m_id m))) (ms ++ [m]) t' := by
  obtain ⟨t₁, hgrow, hin, h₁⟩ := h.grow hnum hn hlt 7
  obtain ⟨f, hput, hholds⟩ := IdNode.put_spec m h₁.holds (Nat.zero_le _) (by simpa using hin) hlt
    (h₁.level_le (max_lt hc hlt))
  -- the assertions about the newest wrap
  have hpush : IdNode.pushVersion (tableID (m_id m)) m (wrapsOf ms (tableID (m_id m))) =
      .ok (m :: wrapsOf ms (tableID (m_id m))) := by
    cases hw : wrapsOf ms (tableID (m_id m)) with
    | nil => rfl
    | cons a rest =>
      obtain ⟨ha, hid⟩ := mem_wrapsOf.mp (hw ▸ List.mem_cons_self : a ∈ wrapsOf ms _)
      simp [IdNode.pushVersion, hid, hver a ha hid]
  rw [hpush] at hput
  refine ⟨⟨t₁.level, f (m :: wrapsOf ms (tableID (m_id m)))⟩, ?_, h₁.le, h₁.lt, ?_⟩
  · simp [TableIdTree.put, hgrow, hput]
  · rw [wrapsOf_snoc]
    exact hholds _

end Inv

/-- The versions that the timelines have handed out lead to a tree. -/
theorem Handed.inv {ts : List (MetaTimeline T)} {ms : List T} (h : Handed ts ms)
    (hlen : ts.length < 2 ^ 31) (hinc : VersionsIncrease ms) :
    ∃ t, ms.foldlM TableIdTree.put TableIdTree.create = .ok t ∧ Inv ts.length ms t := by
  -- one more meta, of a table that is there or of the next one
  have hstep : ∀ {ts : List (MetaTimeline T)} {ms : List T} {m : T} {c' : Nat}, Handed ts ms →
      c' < 2 ^ 31 → tableID (m_id m) ≤ ts.length + 1 → c' = max ts.length (tableID (m_id m)) →
      VersionsIncrease (ms ++ [m]) →
      (VersionsIncrease ms → ∃ t, ms.foldlM TableIdTree.put TableIdTree.create = .ok t ∧
        Inv ts.length ms t) →
      ∃ t, (ms ++ [m]).foldlM TableIdTree.put TableIdTree.create = .ok t ∧
        Inv c' (ms ++ [m]) t := by
    intro ts ms m c' h hc' hn hmax hinc ih
    obtain ⟨hms, _, hver⟩ := List.pairwise_append.mp hinc
    obtain ⟨t, hfold, hinv⟩ := ih hms
    have hnum : ∀ a ∈ ms, tableID (m_id a) ≤ ts.length := fun a ha =>
      ((h.numbers (by omega) _).mp ⟨a, ha, rfl⟩).2
    obtain ⟨t', hput, hinv'⟩ := hinv.put hnum hn (by omega) (by omega)
      (fun a ha => hver a ha m (List.mem_singleton_self m))
    subst hmax
    refine ⟨t', ?_, hinv'⟩
    rw [List.foldlM_append, hfold, Exec.ok_bind, List.foldlM_cons, hput, Exec.ok_bind]
    rfl
  induction h with
  | start => exact ⟨_, rfl, inv_create⟩
  | newTable h hput ih =>
    rw [List.length_append, List.length_singleton] at hlen ⊢
    have hk := id_of_create (by omega) hput
    exact hstep h hlen hk.le (by omega) hinc (ih (by omega))
  | newVersion i h hi hput ih =>
    rw [List.length_set] at hlen ⊢
    have hlt := (List.getElem?_eq_some_iff.mp hi).1
    obtain ⟨hid, hv⟩ := h.timeline hi
    have hk := id_of_put hid (by omega) hv hput
    exact hstep h hlen (by omega) (by omega) hinc (ih hlen)
  | refused i h hi hput ih =>
    rw [List.length_set] at hlen ⊢
    exact ih hlen hinc
  | disabled i h hi hput ih =>
    rw [List.length_set] at hlen ⊢
    exact ih hlen hinc

/-! ## Questions -/

/-- The number of a query is not taken for another one: where its remainder is a number that was
    given away, it is that number. -/
def NotMistaken (c n : Nat) : Prop :=
  1 ≤ n % 2 ^ (16 + 9 * Nat.log 512 c) ∧ n % 2 ^ (16 + 9 * Nat.log 512 c) ≤ c →
    n % 2 ^ (16 + 9 * Nat.log 512 c) = n

instance (c n : Nat) : Decidable (NotMistaken c n) := inferInstanceAs (Decidable (_ → _))

/-- The tree finds the versions of a table, unless it takes the number for another one. -/
theorem Inv.find {c : Nat} {ms : List T} {t : TableIdTree T} (h : Inv c ms t)
    (hnum : ∀ n, (∃ m ∈ ms, tableID (m_id m) = n) ↔ 1 ≤ n ∧ n ≤ c) {n : Nat} (hn : n < 2 ^ 64) :
    IdNode.find n t.level t.m_root =
      if NotMistaken c n then .ok (wrapsOf ms n) else .error .assertFailed := by
  have hnil : ∀ n, ¬(1 ≤ n ∧ n ≤ c) → wrapsOf ms n = [] := by
    intro n hn
    apply List.eq_nil_iff_forall_not_mem.mpr
    intro m hm
    exact hn ((hnum n).mp ⟨m, mem_wrapsOf.mp hm⟩)
  have hpow : 512 ^ t.level * 65536 = 2 ^ (16 + 9 * Nat.log 512 c) := by
    rw [h.log_eq, pow_add, pow_mul, Nat.mul_comm]
    norm_num
  have hfind := IdNode.find_spec h.holds (Nat.zero_le n) hn
  rw [Nat.sub_zero, Nat.zero_add, hpow] at hfind
  have hlt := h.lt
  have hmod : n < 2 ^ (16 + 9 * Nat.log 512 c) → n % 2 ^ (16 + 9 * Nat.log 512 c) = n :=
    Nat.mod_eq_of_lt
  have hrle := Nat.mod_le n (2 ^ (16 + 9 * Nat.log 512 c))
  obtain ⟨r, hr⟩ : ∃ r, n % 2 ^ (16 + 9 * Nat.log 512 c) = r := ⟨_, rfl⟩
  have hiff : NotMistaken c n ↔ (1 ≤ r ∧ r ≤ c → r = n) := by rw [NotMistaken, hr]
  rw [hr] at hfind hmod hrle
  rw [hfind]
  by_cases hgiven : 1 ≤ r ∧ r ≤ c
  · -- the wraps found are those of `r`
    rw [if_pos (by omega)]
    obtain ⟨m, hm⟩ := (hnum r).mpr hgiven
    cases hw : wrapsOf ms r with
    | nil => exact absurd (mem_wrapsOf.mpr hm) (hw ▸ List.not_mem_nil)
    | cons a rest =>
      have ha := (mem_wrapsOf.mp (hw ▸ List.mem_cons_self : a ∈ wrapsOf ms r)).2
      by_cases heq : r = n
      · rw [if_pos (hiff.mpr fun _ => heq), ← heq, hw]
        simp [IdNode.checked, ha]
      · rw [if_neg fun h => heq (hiff.mp h hgiven)]
        simp [IdNode.checked, ha, heq]
  · -- nothing is found, and nothing is there
    rw [if_pos (hiff.mpr fun h => absurd h hgiven), hnil n (by omega), hnil r hgiven]
    split <;> rfl

/-! ## Answers -/

section

variable {ms : List T} (hinc : VersionsIncrease ms) (hid : ∀ m ∈ ms, m_id m < 2 ^ 64)

include hinc hid

theorem wrapsOf_sorted (n : Nat) : (wrapsOf ms n).Pairwise fun a b => m_id b < m_id a := by
  rw [wrapsOf, List.pairwise_reverse]
  have hsub : (ms.filter fun m => tableID (m_id m) = n).Pairwise fun a b =>
      tableID (m_id a) = tableID (m_id b) → tableVersion (m_id a) < tableVersion (m_id b) :=
    List.Pairwise.sublist List.filter_sublist hinc
  apply hsub.imp_of_mem
  intro a b ha hb hlt
  simp only [List.mem_filter, decide_eq_true_eq] at ha hb
  have hver := hlt (ha.2.trans hb.2.symm)
  have hsame := ha.2.trans hb.2.symm
  have := hid a ha.1
  have := hid b hb.1
  rw [tableID_eq, tableID_eq] at hsame
  rw [tableVersion_eq, tableVersion_eq] at hver
  omega

omit hid in
theorem id_unique {a b : T} (ha : a ∈ ms) (hb : b ∈ ms) (hsame : m_id a = m_id b) : a = b := by
  have hne : ∀ a b : T, (tableID (m_id a) = tableID (m_id b) →
      tableVersion (m_id a) < tableVersion (m_id b)) → m_id a ≠ m_id b := by
    intro a b hlt hsame
    rw [hsame] at hlt
    exact absurd (hlt rfl) (lt_irrefl _)
  apply List.Pairwise.forall_of_forall_of_flip (R := fun a b => m_id a = m_id b → a = b)
    (fun _ _ _ => rfl) _ _ ha hb hsame
  · exact hinc.imp fun {a b} h heq => absurd heq (hne a b h)
  · exact hinc.imp fun {a b} h heq => absurd heq.symm (hne a b h)

omit hid in
theorem find_wrapsOf (id : Nat) :
    (wrapsOf ms (tableID id)).find? (fun m => m_id m = id) = putUnder ms id := by
  cases hput : putUnder ms id with
  | none =>
    rw [putUnder, List.find?_eq_none] at hput
    rw [List.find?_eq_none]
    exact fun m hm => hput m (mem_wrapsOf.mp hm).1
  | some m =>
    have hms := List.mem_of_find?_eq_some hput
    have hmid : m_id m = id := by simpa using List.find?_some hput
    have hw : m ∈ wrapsOf ms (tableID id) := mem_wrapsOf.mpr ⟨hms, hmid ▸ rfl⟩
    cases hfind : (wrapsOf ms (tableID id)).find? (fun m => m_id m = id) with
    | none => exact absurd hmid (by simpa using List.find?_eq_none.mp hfind m hw)
    | some a =>
      have ha := (mem_wrapsOf.mp (List.mem_of_find?_eq_some hfind)).1
      have haid : m_id a = id := by simpa using List.find?_some hfind
      rw [id_unique hinc ha hms (haid.trans hmid.symm)]

omit hinc hid in
theorem behind_eq {w : List T} (hsorted : w.Pairwise fun a b => m_id b < m_id a) (id : Nat) :
    TableIdTree.behind id w =
      if (w.find? fun m => m_id m = id).isSome then (w.filter fun m => m_id m < id).head?
      else none := by
  induction w with
  | nil => rfl
  | cons m rest ih =>
    obtain ⟨hbelow, hrest⟩ := List.pairwise_cons.mp hsorted
    rw [TableIdTree.behind, List.find?_cons]
    by_cases heq : m_id m = id
    · have hall : rest.filter (fun a => m_id a < id) = rest := by
        rw [List.filter_eq_self]
        intro a ha
        simpa [heq] using hbelow a ha
      simp [heq, hall]
    · simp only [heq, if_false, decide_false, ih hrest, List.filter_cons]
      by_cases hlt : m_id m < id
      · -- the id is not among those behind a smaller one
        have hnone : rest.find? (fun a => m_id a = id) = none := by
          rw [List.find?_eq_none]
          intro a ha
          have := hbelow a ha
          simp only [decide_eq_true_eq]
          omega
        simp [hnone]
      · simp [hlt]

theorem putUnder_none {m : T} {rest : List T} {id : Nat}
    (hw : wrapsOf ms (tableID id) = m :: rest) (hlt : m_id m < id) : putUnder ms id = none := by
  have hsorted := wrapsOf_sorted hinc hid (tableID id)
  rw [hw] at hsorted
  rw [← find_wrapsOf hinc, hw, List.find?_eq_none]
  intro a ha
  have : m_id a ≤ m_id m := by
    cases ha with
    | head => exact le_rfl
    | tail _ ha => exact ((List.pairwise_cons.mp hsorted).1 a ha).le
  simp only [decide_eq_true_eq]
  omega

theorem get_of_find {t : TableIdTree T} {id : Nat}
    (h : IdNode.find (tableID id) t.level t.m_root = .ok (wrapsOf ms (tableID id))) :
    t.get id = .ok (putUnder ms id) := by
  rw [TableIdTree.get, h, Exec.ok_bind]
  cases hw : wrapsOf ms (tableID id) with
  | nil =>
    rw [← find_wrapsOf hinc, hw]
    rfl
  | cons m rest =>
    dsimp only
    split
    · rename_i hlt
      rw [putUnder_none hinc hid hw hlt]
      rfl
    · rw [← find_wrapsOf hinc, hw]
      rfl

theorem getPrevVersion_of_find {t : TableIdTree T} {id : Nat}
    (h : IdNode.find (tableID id) t.level t.m_root = .ok (wrapsOf ms (tableID id))) :
    t.getPrevVersion id = .ok (putBefore ms id) := by
  have hlast : ((wrapsOf ms (tableID id)).filter fun m => m_id m < id).head? =
      (ms.filter fun m => tableID (m_id m) = tableID id ∧ m_id m < id).getLast? := by
    rw [wrapsOf, List.filter_reverse, List.head?_reverse, List.filter_filter]
    simp [and_comm]
  have hbehind := behind_eq (wrapsOf_sorted hinc hid (tableID id)) id
  rw [find_wrapsOf hinc, hlast] at hbehind
  rw [TableIdTree.getPrevVersion, h, Exec.ok_bind, putBefore, ← hbehind]
  cases hw : wrapsOf ms (tableID id) with
  | nil => rfl
  | cons m rest =>
    dsimp only
    split
    · rename_i hlt
      rw [← hw, hbehind, putUnder_none hinc hid hw hlt]
      rfl
    · rfl

end

/-- After every history with less than `2 ^ 31` tables in which no version wraps, `get` and
    `getPrevVersion` are right about an id, and fail no assertion, exactly when its number is not
    taken for another one. -/
theorem tableIdTree_exact_iff {ts : List (MetaTimeline T)} {ms : List T} (h : Handed ts ms)
    (hlen : ts.length < 2 ^ 31) (hinc : VersionsIncrease ms) (id : Nat) :
    ∃ t, ms.foldlM TableIdTree.put TableIdTree.create = .ok t ∧
      (t.get id = .ok (putUnder ms id) ∧ t.getPrevVersion id = .ok (putBefore ms id) ↔
        NotMistaken ts.length (tableID id)) := by
  obtain ⟨t, hfold, hinv⟩ := h.inv hlen hinc
  have hnumber : tableID id < 2 ^ 64 := by
    rw [tableID_eq]
    omega
  have hfind := hinv.find (h.numbers (by omega)) hnumber
  refine ⟨t, hfold, ?_⟩
  by_cases hmistaken : NotMistaken ts.length (tableID id)
  · rw [if_pos hmistaken] at hfind
    exact iff_of_true ⟨get_of_find hinc h.id_lt hfind, getPrevVersion_of_find hinc h.id_lt hfind⟩
      hmistaken
  · rw [if_neg hmistaken] at hfind
    refine iff_of_false ?_ hmistaken
    rintro ⟨hget, _⟩
    rw [TableIdTree.get, hfind] at hget
    cases hget

def twoVersions : List TableMeta := [{ m_id := genTableId 1 0 }, { m_id := genTableId 1 1 }]

theorem handed_twoVersions : ∃ t : MetaTimeline TableMeta, Handed [t] twoVersions := by
  let first : MetaInfo TableMeta := .version (some { m_id := genTableId 1 0 }) 10 .null
  let second : MetaInfo TableMeta := .version (some { m_id := genTableId 1 1 }) 20 first
  have hfirst : (MetaTimeline.create 1).put (some ({} : TableMeta)) 10 =
      .ok (0, some { m_id := genTableId 1 0 }, ⟨first, 1, 1⟩) := rfl
  have hsecond : (⟨first, 1, 1⟩ : MetaTimeline TableMeta).put (some {}) 20 =
      .ok (0, some { m_id := genTableId 1 1 }, ⟨second, 1, 2⟩) := rfl
  exact ⟨_, .newVersion 0 (.newTable .start hfirst) rfl hsecond⟩

theorem tableIdTree_exact_twoVersions :
    ∃ t, twoVersions.foldlM TableIdTree.put TableIdTree.create = .ok t ∧
      (t.get 65537 = .ok (putUnder twoVersions 65537) ∧
        t.getPrevVersion 65537 = .ok (putBefore twoVersions 65537) ↔ NotMistaken 1 1) := by
  obtain ⟨t, h⟩ := handed_twoVersions
  exact tableIdTree_exact_iff h (by norm_num) (by unfold VersionsIncrease; decide) 65537

/-- A number whose low 16 bits are those of the only table is taken for it. -/
theorem get_mistakes_number :
    ∃ (ts : List (MetaTimeline TableMeta)) (ms : List TableMeta), Handed ts ms ∧
      ∃ id < 2 ^ 64, putUnder ms id = none ∧
        (do
          let t ← ms.foldlM TableIdTree.put TableIdTree.create
          t.get id) = .error .assertFailed := by
  obtain ⟨t, h⟩ := handed_twoVersions
  exact ⟨[t], twoVersions, h, 65537 * 65536, by norm_num, by decide, by decide +kernel⟩

end DBStream.Native.Meta
