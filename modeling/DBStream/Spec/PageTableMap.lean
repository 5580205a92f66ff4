import DBStream.Native.PageTable

/-!
# Page tables as maps

What the calls of a page table are for is given by `Call.act` and `Call.answer` on maps from ids to
values.  `Conforms` says that a table behaves like the map in every state on the way: each call and
each `get` gives what the map has, and `begin` and `end` the values of the smallest and the largest
id.  That holds for a list of calls if and only if `Fits` does: `begin` looks at id 0 and `end` at
the largest id there ever was, a purge above that id does nothing, and one that deletes a mid table
keeps the pointer to it.
-/

namespace DBStream.Native.Util

/-- The table that a pointer leads to. -/
def Child.toOption {α : Type} : Child α → Option α
  | .table t => some t
  | _ => none

@[simp] theorem Child.toOption_null {α : Type} : (Child.null : Child α).toOption = none := rfl

@[simp] theorem Child.toOption_table {α : Type} (t : α) : (Child.table t).toOption = some t := rfl

/-- Change the table that a pointer leads to. -/
def Child.map {α : Type} (f : α → α) : Child α → Child α
  | .table t => .table (f t)
  | c => c

theorem Child.toOption_map {α : Type} (f : α → α) (c : Child α) :
    (c.map f).toOption = c.toOption.map f := by
  cases c <;> rfl

/-- Delete the table that a pointer leads to, and leave something in the place of the pointer. -/
def Child.delete {α : Type} : Child α → Child α → Child α
  | .table _, left => left
  | _, _ => .null

namespace PageTable

variable {V : Type}

/-! ## Maps -/

abbrev IdMap (V : Type) := BitVec 32 → Option V

/-- A call that changes a table. -/
inductive Call (V : Type) where
  | set (id : BitVec 32) (data : Option V)
  | update (id : BitVec 32) (data : Option V)
  | erase (id : BitVec 32)
  | purge (id : BitVec 32)

/-- What a call returns. -/
inductive Answer (V : Type) where
  | value (data : Option V)
  | done (ok : Bool)
  | nothing

def Call.act (m : IdMap V) : Call V → IdMap V
  | .set id data => if (m id).isSome then m else Function.update m id data
  | .update id data => if (m id).isSome then Function.update m id data else m
  | .erase id => Function.update m id none
  | .purge id => fun k => if k < id then none else m k

/-- What a call returns for a map. -/
def Call.answer (m : IdMap V) : Call V → Answer V
  | .set id data => .value ((m id).or data)
  | .update id _ => .done (m id).isSome
  | .erase _ => .nothing
  | .purge _ => .nothing

def call (s : PageTable V) : Call V → Exec (Answer V × PageTable V)
  | .set id data => do
    let (data, s) ← s.set id data
    return (.value data, s)
  | .update id data => do
    let (ok, s) ← s.update id data
    return (.done ok, s)
  | .erase id => do
    let (_, s) ← s.erase id
    return (.nothing, s)
  | .purge id => do
    let (_, s) ← s.purge id
    return (.nothing, s)

def IsFirst (m : IdMap V) (v : Option V) : Prop :=
  (∀ k, m k = none) ∧ v = none ∨ ∃ id, (m id).isSome ∧ v = m id ∧ ∀ k, (m k).isSome → id ≤ k

def IsLast (m : IdMap V) (v : Option V) : Prop :=
  (∀ k, m k = none) ∧ v = none ∨ ∃ id, (m id).isSome ∧ v = m id ∧ ∀ k, (m k).isSome → k ≤ id

/-- What is read from the table is what the map has. -/
structure Holds (s : PageTable V) (m : IdMap V) : Prop where
  get : ∀ id, s.get id = .ok (m id)
  first : ∃ v, s.begin = .ok v ∧ IsFirst m v
  last : ∃ v, s.end' = .ok v ∧ IsLast m v

/-- The table behaves like the map under the calls, before, between and after them. -/
def Conforms (s : PageTable V) (m : IdMap V) : List (Call V) → Prop
  | [] => s.Holds m
  | c :: cs => s.Holds m ∧
    ∃ answer s', s.call c = .ok (answer, s') ∧ answer = c.answer m ∧ s'.Conforms (c.act m) cs

/-! ## When it is one -/

/-- What the calls so far were: the map, the largest id that was given to `set`, and the high bytes
    of the ids that were. -/
structure History (V : Type) where
  map : IdMap V := fun _ => none
  top : BitVec 32 := 0
  opened : BitVec 8 → Bool := fun _ => false

namespace History

/-- The history with one more call. -/
def step (h : History V) (c : Call V) : History V :=
  match c with
  | .set id _ =>
    { map := c.act h.map
      top := if h.top ≥ id then h.top else id
      opened := Function.update h.opened (PT_HIGH id) true }
  | _ => { h with map := c.act h.map }

/-- The map is empty, or has id 0 and the largest id there ever was. -/
def Good (h : History V) : Prop :=
  (∀ k, h.map k = none) ∨ (h.map 0).isSome ∧ (h.map h.top).isSome

/-- A purge has no mid table below, or the map is empty and it is above all ids. -/
def Allows (h : History V) : Call V → Prop
  | .purge id =>
    if id ≤ h.top then ∀ i, i < PT_HIGH id → h.opened i = false else ∀ k, h.map k = none
  | _ => True

theorem allows_purge {h : History V} {id : BitVec 32} : h.Allows (.purge id) ↔
    if id ≤ h.top then ∀ i, i < PT_HIGH id → h.opened i = false else ∀ k, h.map k = none := Iff.rfl

/-- The calls are allowed and lead to good maps only. -/
def Fits (h : History V) : List (Call V) → Prop
  | [] => h.Good
  | c :: cs => h.Good ∧ h.Allows c ∧ (h.step c).Fits cs

end History

/-! ## Parts of an id -/

variable {id k : BitVec 32}

theorem toNat_PT_HIGH : (PT_HIGH id).toNat = id.toNat / 2 ^ 24 := by
  rw [PT_HIGH, BitVec.toNat_setWidth, BitVec.toNat_ushiftRight, Nat.shiftRight_eq_div_pow]
  omega

theorem toNat_PT_MID : (PT_MID id).toNat = id.toNat / 2 ^ 12 % 2 ^ 12 := by
  have hmask : (0x00fff000#32) >>> 12 = 0xfff#32 := by decide
  rw [PT_MID, BitVec.ushiftRight_and_distrib, hmask, BitVec.toNat_setWidth, BitVec.toNat_and,
    BitVec.toNat_ushiftRight, Nat.shiftRight_eq_div_pow]
  show (id.toNat / 2 ^ 12 &&& 2 ^ 12 - 1) % 2 ^ 12 = _
  rw [Nat.and_two_pow_sub_one_eq_mod, Nat.mod_mod]

theorem toNat_PT_LOW : (PT_LOW id).toNat = id.toNat % 2 ^ 12 := by
  show (id.toNat &&& 2 ^ 12 - 1) % 2 ^ 12 = _
  rw [Nat.and_two_pow_sub_one_eq_mod, Nat.mod_mod]

private theorem eq_of_parts (hhigh : PT_HIGH k = PT_HIGH id) (hmid : PT_MID k = PT_MID id)
    (hlow : PT_LOW k = PT_LOW id) : k = id := by
  have hhigh := congrArg BitVec.toNat hhigh
  have hmid := congrArg BitVec.toNat hmid
  have hlow := congrArg BitVec.toNat hlow
  rw [toNat_PT_HIGH, toNat_PT_HIGH] at hhigh
  rw [toNat_PT_MID, toNat_PT_MID] at hmid
  rw [toNat_PT_LOW, toNat_PT_LOW] at hlow
  apply BitVec.eq_of_toNat_eq
  omega

theorem lt_iff_parts : k < id ↔ PT_HIGH k < PT_HIGH id ∨ PT_HIGH k = PT_HIGH id ∧
    (PT_MID k < PT_MID id ∨ PT_MID k = PT_MID id ∧ PT_LOW k < PT_LOW id) := by
  simp only [BitVec.lt_def, ← BitVec.toNat_inj, toNat_PT_HIGH, toNat_PT_MID, toNat_PT_LOW]
  omega

/-! ## Tables that were not deleted -/

def slot (s : PageTable V) (id : BitVec 32) : Option V :=
  (s.root (PT_HIGH id)).toOption.bind fun mid =>
    (mid (PT_MID id)).toOption.bind fun low => low (PT_LOW id)

/-- No pointer leads to a table that was deleted. -/
structure Live (s : PageTable V) : Prop where
  root : ∀ i, s.root i ≠ .freed
  mid : ∀ i mid, s.root i = .table mid → ∀ j, mid j ≠ .freed

variable {s : PageTable V} {mid : MidNode V} {low : LowNode V} {data : Option V}

theorem follow_eq {α : Type} {c : Child α} (h : c ≠ .freed) : follow c = .ok c.toOption := by
  cases c with
  | null => rfl
  | table t => rfl
  | freed => exact absurd rfl h

theorem findLow_spec (h : Live s) (id : BitVec 32) :
    s.findLow id = .ok none ∧ s.slot id = none ∨
      ∃ mid low, s.findLow id = .ok (some (mid, low)) ∧ s.slot id = low (PT_LOW id) ∧
        s.root (PT_HIGH id) = .table mid ∧ mid (PT_MID id) = .table low := by
  unfold findLow slot
  rw [follow_eq (h.root _), Exec.ok_bind]
  cases hroot : s.root (PT_HIGH id) with
  | null => exact .inl ⟨rfl, rfl⟩
  | freed => exact absurd hroot (h.root _)
  | table mid =>
    have hfollow := follow_eq (h.mid _ _ hroot (PT_MID id))
    cases hmid : mid (PT_MID id) with
    | null =>
      rw [hmid] at hfollow
      exact .inl ⟨by simp [hmid, hfollow], by simp [hmid]⟩
    | freed => exact absurd hmid (h.mid _ _ hroot _)
    | table low =>
      rw [hmid] at hfollow
      exact .inr ⟨mid, low, by simp [hmid, hfollow], by simp [hmid], rfl, hmid⟩

/-- The tables from which the one with the slot of an id is stored are those that are there, or new
    ones. -/
structure Leads (s : PageTable V) (id : BitVec 32) (mid : MidNode V) (low : LowNode V) : Prop where
  mid_eq : (s.root (PT_HIGH id)).toOption.getD (fun _ => .null) = mid
  low_eq : (mid (PT_MID id)).toOption.getD (fun _ => none) = low

theorem Leads.slot_eq (h : Leads s id mid low) : s.slot id = low (PT_LOW id) := by
  obtain ⟨rfl, rfl⟩ := h
  unfold slot
  cases (s.root (PT_HIGH id)).toOption with
  | none => rfl
  | some mid =>
    simp only [Option.bind_some, Option.getD_some]
    cases (mid (PT_MID id)).toOption <;> rfl

theorem storeLow_root : (s.storeLow id mid low).root =
    Function.update s.root (PT_HIGH id) (.table (Function.update mid (PT_MID id) (.table low))) :=
  rfl

theorem slot_storeLow (h : Leads s id mid low) (data : Option V) :
    (s.storeLow id mid (Function.update low (PT_LOW id) data)).slot =
      Function.update s.slot id data := by
  obtain ⟨hmid, hlow⟩ := h
  funext k
  by_cases hk : k = id
  · subst hk
    simp [slot, storeLow_root]
  · rw [Function.update_of_ne hk]
    by_cases hhigh : PT_HIGH k = PT_HIGH id
    · have hold : s.slot k = (mid (PT_MID k)).toOption.bind fun low => low (PT_LOW k) := by
        rw [slot, hhigh, ← hmid]
        cases (s.root (PT_HIGH id)).toOption <;> rfl
      rw [hold]
      by_cases hsame : PT_MID k = PT_MID id
      · have hne : PT_LOW k ≠ PT_LOW id := fun hpart => hk (eq_of_parts hhigh hsame hpart)
        simp only [slot, storeLow_root, hhigh, hsame, Function.update_self, Child.toOption_table,
          Option.bind_some, Function.update_of_ne hne]
        rw [← hlow]
        cases (mid (PT_MID id)).toOption <;> rfl
      · simp [slot, storeLow_root, hhigh, Function.update_of_ne hsame]
    · simp only [slot, storeLow_root, Function.update_of_ne hhigh]

theorem Live.storeLow (h : Live s) (hleads : Leads s id mid low) (low' : LowNode V) :
    Live (s.storeLow id mid low') where
  root i := by
    rw [storeLow_root]
    by_cases hi : i = PT_HIGH id
    · subst hi
      rw [Function.update_self]
      nofun
    · rw [Function.update_of_ne hi]
      exact h.root i
  mid i mid' hmid' j := by
    rw [storeLow_root] at hmid'
    by_cases hi : i = PT_HIGH id
    · subst hi
      rw [Function.update_self] at hmid'
      cases hmid'
      by_cases hj : j = PT_MID id
      · subst hj
        rw [Function.update_self]
        nofun
      · rw [Function.update_of_ne hj, ← hleads.mid_eq]
        cases hroot : s.root (PT_HIGH id) with
        | null => nofun
        | freed => nofun
        | table t => exact h.mid _ t hroot j
    · rw [Function.update_of_ne hi] at hmid'
      exact h.mid i mid' hmid' j

/-! ## Tables with a history -/

/-- A table is as its history says. -/
structure Refines (s : PageTable V) (h : History V) : Prop where
  live : Live s
  min_eq : s.min = 0
  max_eq : s.max = h.top
  opened_iff : ∀ i, h.opened i = true ↔ s.root i ≠ .null
  slot_eq : s.slot = h.map
  le_top : ∀ k, (h.map k).isSome → k ≤ h.top

variable {h : History V} {c : Call V} {m : IdMap V}

theorem Refines.outOfRange_eq (hr : Refines s h) (id : BitVec 32) :
    s.outOfRange id = decide (h.top < id) := by
  rw [outOfRange, hr.min_eq, hr.max_eq]
  simp

theorem Refines.map_eq_none (hr : Refines s h) (hid : h.top < id) : h.map id = none := by
  have hle : ¬id ≤ h.top := BitVec.not_le.mpr hid
  rw [← Option.not_isSome_iff_eq_none]
  exact fun hsome => hle (hr.le_top id hsome)

theorem Refines.get_eq (hr : Refines s h) (id : BitVec 32) : s.get id = .ok (h.map id) := by
  rw [get, hr.outOfRange_eq]
  by_cases hid : h.top < id
  · simp [hid, hr.map_eq_none hid]
  · obtain ⟨hfind, hslot⟩ | ⟨mid, low, hfind, hslot, -, -⟩ := findLow_spec hr.live id
    · simp [hid, hfind, ← hr.slot_eq, hslot]
    · simp [hid, hfind, ← hr.slot_eq, hslot]

private theorem isFirst_iff : IsFirst m (m 0) ↔ (∀ k, m k = none) ∨ (m 0).isSome := by
  constructor
  · rintro (⟨hempty, -⟩ | ⟨id, hid, heq, -⟩)
    · exact .inl hempty
    · exact .inr (heq ▸ hid)
  · rintro (hempty | hzero)
    · exact .inl ⟨hempty, hempty 0⟩
    · exact .inr ⟨0, hzero, rfl, fun k _ => BitVec.not_lt.mp BitVec.not_lt_zero⟩

private theorem isLast_iff {top : BitVec 32} (htop : ∀ k, (m k).isSome → k ≤ top) :
    IsLast m (m top) ↔ (∀ k, m k = none) ∨ (m top).isSome := by
  constructor
  · rintro (⟨hempty, -⟩ | ⟨id, hid, heq, -⟩)
    · exact .inl hempty
    · exact .inr (heq ▸ hid)
  · rintro (hempty | hlast)
    · exact .inl ⟨hempty, hempty top⟩
    · exact .inr ⟨top, hlast, rfl, htop⟩

theorem Refines.holds_iff (hr : Refines s h) : s.Holds h.map ↔ h.Good := by
  have hbegin : s.begin = .ok (h.map 0) := by rw [begin, hr.min_eq, hr.get_eq]
  have hend : s.end' = .ok (h.map h.top) := by rw [end', hr.max_eq, hr.get_eq]
  have hgood : h.Good ↔ IsFirst h.map (h.map 0) ∧ IsLast h.map (h.map h.top) := by
    rw [isFirst_iff, isLast_iff hr.le_top, ← or_and_left]
    rfl
  rw [hgood]
  constructor
  · rintro ⟨-, ⟨v, hv, hfirst⟩, ⟨w, hw, hlast⟩⟩
    cases hbegin.symm.trans hv
    cases hend.symm.trans hw
    exact ⟨hfirst, hlast⟩
  · rintro ⟨hfirst, hlast⟩
    exact ⟨hr.get_eq, ⟨_, hbegin, hfirst⟩, ⟨_, hend, hlast⟩⟩

/-! ## Set, update and erase -/

/-- A call keeps the table as its history says and gives the answer of the map. -/
def Keeps (s : PageTable V) (h : History V) (c : Call V) : Prop :=
  ∃ s', s.call c = .ok (c.answer h.map, s') ∧ Refines s' (h.step c)

theorem root_storeLow_ne_null (i : BitVec 8) :
    (s.storeLow id mid low).root i ≠ .null ↔ i = PT_HIGH id ∨ s.root i ≠ .null := by
  rw [storeLow_root]
  by_cases hi : i = PT_HIGH id
  · subst hi
    rw [Function.update_self]
    exact iff_of_true nofun (.inl rfl)
  · rw [Function.update_of_ne hi]
    exact (or_iff_right hi).symm

theorem Refines.opened_storeLow (hr : Refines s h) (hroot : s.root (PT_HIGH id) = .table mid)
    (mid' : MidNode V) (i : BitVec 8) :
    h.opened i = true ↔ (s.storeLow id mid' low).root i ≠ .null := by
  rw [root_storeLow_ne_null, hr.opened_iff i]
  constructor
  · exact .inr
  · rintro (rfl | hi)
    · rw [hroot]
      nofun
    · exact hi

theorem Refines.find (hr : Refines s h) (id : BitVec 32) :
    h.map id = none ∧ (s.outOfRange id = true ∨ s.outOfRange id = false ∧
        (s.findLow id = .ok none ∨ ∃ mid low, s.findLow id = .ok (some (mid, low)) ∧
          low (PT_LOW id) = none)) ∨
      ∃ mid low old, h.map id = some old ∧ s.outOfRange id = false ∧
        s.findLow id = .ok (some (mid, low)) ∧ low (PT_LOW id) = some old ∧
        s.root (PT_HIGH id) = .table mid ∧ mid (PT_MID id) = .table low := by
  have hmap : h.map id = s.slot id := congrFun hr.slot_eq.symm id
  rw [hr.outOfRange_eq]
  by_cases hid : h.top < id
  · exact .inl ⟨hr.map_eq_none hid, .inl (decide_eq_true hid)⟩
  · have hrange := decide_eq_false hid
    obtain ⟨hfind, hslot⟩ | ⟨mid, low, hfind, hslot, hroot, hmid⟩ := findLow_spec hr.live id
    · exact .inl ⟨hmap.trans hslot, .inr ⟨hrange, .inl hfind⟩⟩
    · cases hvalue : low (PT_LOW id) with
      | none =>
        exact .inl ⟨(hmap.trans hslot).trans hvalue, .inr ⟨hrange, .inr ⟨mid, low, hfind, hvalue⟩⟩⟩
      | some old =>
        exact .inr ⟨mid, low, old, (hmap.trans hslot).trans hvalue, hrange, hfind, hvalue, hroot,
          hmid⟩

theorem Refines.store (hr : Refines s h) (hid : (h.map id).isSome)
    (hroot : s.root (PT_HIGH id) = .table mid) (hmid : mid (PT_MID id) = .table low)
    (data : Option V) :
    Refines (s.storeLow id mid (Function.update low (PT_LOW id) data))
      { h with map := Function.update h.map id data } := by
  have hleads : Leads s id mid low := ⟨by simp [hroot], by simp [hmid]⟩
  constructor
  · exact hr.live.storeLow hleads _
  · exact hr.min_eq
  · exact hr.max_eq
  · exact hr.opened_storeLow hroot _
  · rw [slot_storeLow hleads, hr.slot_eq]
  · intro k hk
    by_cases hkid : k = id
    · subst hkid
      exact hr.le_top k hid
    · refine hr.le_top k ?_
      simpa [Function.update_of_ne hkid] using hk

theorem Refines.update_keeps (hr : Refines s h) (id : BitVec 32) (data : Option V) :
    Keeps s h (.update id data) := by
  obtain ⟨hnone, habsent⟩ | ⟨mid, low, old, hsome, hrange, hfind, hold, hroot, hmid⟩ := hr.find id
  · have hstep : h.step (.update id data) = h := by simp [History.step, Call.act, hnone]
    have hupdate : s.update id data = .ok (false, s) := by
      obtain hrange | ⟨hrange, hfind | ⟨mid, low, hfind, hslot⟩⟩ := habsent
      · simp [update, hrange]
      · simp [update, hrange, hfind]
      · simp [update, hrange, hfind, hslot]
    exact ⟨s, by simp [call, hupdate, Call.answer, hnone], hstep.symm ▸ hr⟩
  · have hstep : h.step (.update id data) = { h with map := Function.update h.map id data } := by
      simp [History.step, Call.act, hsome]
    have hupdate : s.update id data =
        .ok (true, s.storeLow id mid (Function.update low (PT_LOW id) data)) := by
      simp [update, hrange, hfind, hold]
    exact ⟨_, by simp [call, hupdate, Call.answer, hsome],
      hstep.symm ▸ hr.store (by simp [hsome]) hroot hmid data⟩

theorem Refines.erase_keeps (hr : Refines s h) (id : BitVec 32) : Keeps s h (.erase id) := by
  obtain ⟨hnone, habsent⟩ | ⟨mid, low, old, hsome, hrange, hfind, hold, hroot, hmid⟩ := hr.find id
  · have hstep : h.step (.erase id) = h := by
      have hsame : Function.update h.map id none = h.map := by
        rw [← hnone, Function.update_eq_self]
      simp [History.step, Call.act, hsame]
    have herase : s.erase id = .ok ([], s) := by
      obtain hrange | ⟨hrange, hfind | ⟨mid, low, hfind, hslot⟩⟩ := habsent
      · simp [erase, hrange]
      · simp [erase, hrange, hfind]
      · simp [erase, hrange, hfind, hslot]
    exact ⟨s, by simp [call, herase, Call.answer], hstep.symm ▸ hr⟩
  · have herase : s.erase id =
        .ok ([old], s.storeLow id mid (Function.update low (PT_LOW id) none)) := by
      simp [erase, hrange, hfind, hold]
    exact ⟨_, by simp [call, herase, Call.answer], hr.store (by simp [hsome]) hroot hmid none⟩

theorem Live.leads (hlive : Live s) (id : BitVec 32) :
    ∃ mid low, Leads s id mid low ∧
      follow (s.root (PT_HIGH id)) = .ok (s.root (PT_HIGH id)).toOption ∧
      follow (mid (PT_MID id)) = .ok (mid (PT_MID id)).toOption := by
  refine ⟨_, _, ⟨rfl, rfl⟩, follow_eq (hlive.root _), ?_⟩
  cases hroot : s.root (PT_HIGH id) with
  | null => rfl
  | freed => exact absurd hroot (hlive.root _)
  | table mid => exact follow_eq (hlive.mid _ mid hroot _)

/-- `set` of the tree is the map with one more value, or changes nothing. -/
theorem Refines.set_keeps (hr : Refines s h) (id : BitVec 32) (data : Option V) :
    Keeps s h (.set id data) := by
  obtain ⟨mid, low, hleads, hfollow, hfollow'⟩ := hr.live.leads id
  have hmap : h.map id = low (PT_LOW id) := by rw [← hr.slot_eq, hleads.slot_eq]
  have hopened (low' : LowNode V) (i : BitVec 8) :
      Function.update h.opened (PT_HIGH id) true i = true ↔
        (s.storeLow id mid low').root i ≠ .null := by
    rw [root_storeLow_ne_null, ← hr.opened_iff i]
    by_cases hi : i = PT_HIGH id
    · simp [hi]
    · simp [hi]
  -- `set` stores only where there is no value; else it answers the old one
  cases hvalue : low (PT_LOW id) with
  | some old =>
    have hsome := hmap.trans hvalue
    have hset : s.set id data = .ok (some old, s.storeLow id mid low) := by
      simp [set, hfollow, hleads.mid_eq, hfollow', hleads.low_eq, hvalue]
    refine ⟨s.storeLow id mid low, by simp [call, hset, Call.answer, hsome], ?_⟩
    have hle : id ≤ h.top := hr.le_top id (by simp [hsome])
    constructor
    · exact hr.live.storeLow hleads _
    · exact hr.min_eq
    · have hmax : (s.storeLow id mid low).max = h.top := hr.max_eq
      simpa [History.step, hle] using hmax
    · exact hopened low
    -- nodes may have been made on the way, but every slot is as before
    · have hsame : (s.storeLow id mid low).slot = s.slot := by
        have hstore := slot_storeLow hleads (low (PT_LOW id))
        rwa [Function.update_eq_self, ← hleads.slot_eq, Function.update_eq_self] at hstore
      rw [hsame, hr.slot_eq]
      simp [History.step, Call.act, hsome]
    · intro k hk
      simp only [History.step, Call.act, hsome, Option.isSome_some, if_true] at hk
      simpa [History.step, hle] using hr.le_top k hk
  | none =>
    have hnone := hmap.trans hvalue
    have hset : s.set id data =
        .ok (data, (s.storeLow id mid (Function.update low (PT_LOW id) data)).widen id) := by
      simp [set, hfollow, hleads.mid_eq, hfollow', hleads.low_eq, hvalue]
    refine ⟨(s.storeLow id mid (Function.update low (PT_LOW id) data)).widen id,
      by simp [call, hset, Call.answer, hnone], ?_⟩
    constructor
    · exact ⟨(hr.live.storeLow hleads _).root, (hr.live.storeLow hleads _).mid⟩
    · simp [widen, storeLow, hr.min_eq]
    · simp [widen, storeLow, History.step, hr.max_eq]
    · exact hopened _
    · have hslot := slot_storeLow hleads data
      rw [hr.slot_eq] at hslot
      simp only [History.step, Call.act, hnone, Option.isSome_none, Bool.false_eq_true, if_false]
      exact hslot
    · intro k hk
      simp only [History.step, Call.act, hnone, Option.isSome_none, Bool.false_eq_true,
        if_false] at hk
      -- `widen` moves the upper bound to `id`
      have hkle : k = id ∨ k ≤ h.top := by
        by_cases hkid : k = id
        · exact .inl hkid
        · rw [Function.update_of_ne hkid] at hk
          exact .inr (hr.le_top k hk)
      simp only [History.step, BitVec.le_def, ge_iff_le] at hkle ⊢
      split_ifs with hle
      · obtain rfl | hkle := hkle
        · exact hle
        · exact hkle
      · obtain rfl | hkle := hkle
        · exact le_refl _
        · omega

/-! ## Purge -/

theorem deleteTable_eq {w n : Nat} {α : Type} {visit : α → Exec (α × List V)}
    {child : Child (BitVec w → α)} (new : α → α) (hn : n ≤ 2 ^ w) (hchild : child ≠ .freed)
    (hvisit : ∀ t, child = .table t → ∀ k, ∃ more, visit (t k) = .ok (new (t k), more))
    (left : Child (BitVec w → α)) :
    ∃ values, deleteTable visit n left child = .ok (child.delete left, values) := by
  cases child with
  | null => exact ⟨[], rfl⟩
  | freed => exact absurd rfl hchild
  | table t =>
    have hvisit : ∀ k : BitVec w, k.toNat < n → ∃ more, visit (t k) = .ok (new (t k), more) :=
      fun k _ => hvisit t rfl k
    obtain ⟨values, hsweep⟩ := sweep_eq_ok hn hvisit
    exact ⟨values, by simp [deleteTable, follow, hsweep, Child.delete]⟩

theorem deleteLow_eq {child : Child (LowNode V)} (hchild : child ≠ .freed)
    (left : Child (LowNode V)) :
    ∃ values, deleteLow left child = .ok (child.delete left, values) :=
  deleteTable_eq (fun slot => slot) (by omega) hchild (fun _ _ _ => ⟨_, rfl⟩) left

theorem deleteMid_eq {child : Child (MidNode V)} (hchild : child ≠ .freed)
    (hmid : ∀ mid, child = .table mid → ∀ j, mid j ≠ .freed) :
    ∃ values, deleteMid child = .ok (child.delete .freed, values) :=
  deleteTable_eq (fun low => low.delete .freed) (by omega) hchild
    (fun mid ht j => deleteLow_eq (hmid mid ht j) .freed) .freed

/-- A low table without the slots below that of an id. -/
def purgedLow (id : BitVec 32) (low : LowNode V) : LowNode V :=
  fun l => if l.toNat < (PT_LOW id).toNat then none else low l

/-- A mid table without the low tables below that of an id. -/
def purgedMid (id : BitVec 32) (mid : MidNode V) : MidNode V :=
  Function.update (fun j => if j.toNat < (PT_MID id).toNat then .null else mid j) (PT_MID id)
    ((mid (PT_MID id)).map (purgedLow id))

/-- The root where the mid tables below that of an id are deleted. -/
def purgedRoot (s : PageTable V) (id : BitVec 32) : BitVec 8 → Child (MidNode V) :=
  Function.update
    (fun i => if i.toNat < (PT_HIGH id).toNat then (s.root i).delete .freed else s.root i)
    (PT_HIGH id) ((s.root (PT_HIGH id)).map (purgedMid id))

/-- The purge of a live tree gives the values below the id. -/
theorem purge_eq (hlive : Live s) (hrange : s.outOfRange id = false) :
    ∃ values, s.purge id = .ok (values, { s with root := s.purgedRoot id }) := by
  have hmin : s.min ≤ id := by
    simp only [outOfRange, Bool.or_eq_false_iff, decide_eq_false_iff_not] at hrange
    exact BitVec.not_lt.mp hrange.1
  have hdelete : ∀ i : BitVec 8, i.toNat < (PT_HIGH id).toNat →
      ∃ more, deleteMid (s.root i) = .ok ((s.root i).delete .freed, more) :=
    fun i _ => deleteMid_eq (hlive.root i) (hlive.mid i)
  obtain ⟨values, hsweep⟩ := sweep_eq_ok (PT_HIGH id).isLt.le hdelete
  -- the nodes before the id's own are deleted; its own one is swept a level further down
  cases hroot : s.root (PT_HIGH id) with
  | freed => exact absurd hroot (hlive.root _)
  | null =>
    refine ⟨values, ?_⟩
    have hsame : (fun i => if i.toNat < (PT_HIGH id).toNat then (s.root i).delete .freed
        else s.root i) = s.purgedRoot id := by
      funext i
      by_cases hi : i = PT_HIGH id
      · subst hi
        simp [purgedRoot, hroot, Child.map]
      · simp [purgedRoot, hi]
    have hnull : follow (s.purgedRoot id (PT_HIGH id)) = .ok none := by
      simp [purgedRoot, hroot, Child.map, follow]
    simp [purge, hrange, hmin, hsweep, hsame, hnull]
  | table mid =>
    have hdeleteLow : ∀ j : BitVec 12, j.toNat < (PT_MID id).toNat →
        ∃ more, deleteLow .null (mid j) = .ok (.null, more) := by
      intro j _
      have hnull : (mid j).delete .null = .null := by cases mid j <;> rfl
      have hdelete := deleteLow_eq (hlive.mid _ mid hroot j) .null
      rwa [hnull] at hdelete
    have hle : (PT_MID id).toNat ≤ 2 ^ 12 := (PT_MID id).isLt.le
    obtain ⟨more, hsweepMid⟩ := sweep_eq_ok hle hdeleteLow
    cases hmid : mid (PT_MID id) with
    | freed => exact absurd hmid (hlive.mid _ mid hroot _)
    | null =>
      have hpurged : (fun j => if j.toNat < (PT_MID id).toNat then .null else mid j) =
          purgedMid id mid := by
        rw [purgedMid, hmid]
        funext j
        by_cases hj : j = PT_MID id
        · subst hj
          simp [hmid, Child.map]
        · simp [hj]
      refine ⟨values ++ more, ?_⟩
      have hnull : purgedMid id mid (PT_MID id) = .null := by simp [purgedMid, hmid, Child.map]
      simp [purge, hrange, hmin, hsweep, hroot, follow, hsweepMid, hpurged, hnull, purgedRoot,
        Child.map]
    | table low =>
      have hclear : ∀ l : BitVec 12, l.toNat < (PT_LOW id).toNat →
          ∃ rest, clearSlot (low l) = .ok (none, rest) := fun l _ => ⟨_, rfl⟩
      have hle : (PT_LOW id).toNat ≤ 2 ^ 12 := (PT_LOW id).isLt.le
      obtain ⟨rest, hsweepLow⟩ := sweep_eq_ok hle hclear
      refine ⟨values ++ more ++ rest, ?_⟩
      simp [purge, hrange, hmin, hsweep, hroot, follow, hsweepMid, hmid, hsweepLow, storeLow,
        purgedRoot, purgedMid, Child.map]
      rfl

/-- The tree that a purge leaves is live. -/
theorem Live.purged (hlive : Live s) (hbelow : ∀ i, i < PT_HIGH id → s.root i = .null)
    {s' : PageTable V} (hroot' : s'.root = s.purgedRoot id) : Live s' where
  root i := by
    rw [hroot']
    unfold purgedRoot
    by_cases hi : i = PT_HIGH id
    · subst hi
      rw [Function.update_self]
      cases hroot : s.root (PT_HIGH id) with
      | null => nofun
      | table mid => nofun
      | freed => exact absurd hroot (hlive.root _)
    · rw [Function.update_of_ne hi]
      split_ifs with hlt
      · rw [hbelow i hlt]
        nofun
      · exact hlive.root i
  mid i mid' hmid' j := by
    rw [hroot'] at hmid'
    unfold purgedRoot at hmid'
    by_cases hi : i = PT_HIGH id
    · subst hi
      rw [Function.update_self] at hmid'
      cases hroot : s.root (PT_HIGH id) with
      | null =>
        rw [hroot] at hmid'
        cases hmid'
      | freed => exact absurd hroot (hlive.root _)
      | table mid =>
        rw [hroot] at hmid'
        cases hmid'
        have hne : ∀ j, mid j ≠ .freed := hlive.mid _ mid hroot
        unfold purgedMid
        by_cases hj : j = PT_MID id
        · subst hj
          rw [Function.update_self]
          cases hchild : mid (PT_MID id) with
          | null => nofun
          | table low => nofun
          | freed => exact absurd hchild (hne _)
        · rw [Function.update_of_ne hj]
          split_ifs
          · nofun
          · exact hne j
    · rw [Function.update_of_ne hi] at hmid'
      split_ifs at hmid' with hlt
      · rw [hbelow i hlt] at hmid'
        cases hmid'
      · exact hlive.mid i mid' hmid' j

theorem slot_purged (hbelow : ∀ i, i < PT_HIGH id → s.root i = .null) {s' : PageTable V}
    (hroot' : s'.root = s.purgedRoot id) (k : BitVec 32) :
    s'.slot k = if k < id then none else s.slot k := by
  have hparts : k < id ↔ (PT_HIGH k).toNat < (PT_HIGH id).toNat ∨ PT_HIGH k = PT_HIGH id ∧
      ((PT_MID k).toNat < (PT_MID id).toNat ∨ PT_MID k = PT_MID id ∧
        (PT_LOW k).toNat < (PT_LOW id).toNat) := lt_iff_parts
  unfold slot
  rw [hroot', purgedRoot]
  by_cases hhigh : PT_HIGH k = PT_HIGH id
  · rw [hhigh, Function.update_self, Child.toOption_map]
    cases (s.root (PT_HIGH id)).toOption with
    | none => simp
    | some mid =>
      simp only [Option.map_some, Option.bind_some, purgedMid]
      by_cases hmid : PT_MID k = PT_MID id
      · rw [hmid, Function.update_self, Child.toOption_map]
        cases (mid (PT_MID id)).toOption with
        | none => simp
        | some low => simp [purgedLow, hparts, hhigh, hmid]
      · rw [Function.update_of_ne hmid]
        by_cases hlt : (PT_MID k).toNat < (PT_MID id).toNat
        · simp [hparts, hhigh, hlt]
        · simp [hparts, hhigh, hlt, hmid]
  · rw [Function.update_of_ne hhigh]
    by_cases hlt : (PT_HIGH k).toNat < (PT_HIGH id).toNat
    · simp [hparts, hlt, hbelow _ hlt, Child.delete]
    · simp [hparts, hhigh, hlt]

theorem Refines.purge_keeps (hr : Refines s h) (hid : id ≤ h.top)
    (hopened : ∀ i, i < PT_HIGH id → h.opened i = false) : Keeps s h (.purge id) := by
  have hbelow : ∀ i, i < PT_HIGH id → s.root i = .null := by
    intro i hi
    by_contra hne
    have hopen := (hr.opened_iff i).mpr hne
    rw [hopened i hi] at hopen
    cases hopen
  have hrange : s.outOfRange id = false := by
    rw [hr.outOfRange_eq]
    exact decide_eq_false (BitVec.not_lt.mpr hid)
  obtain ⟨values, hpurge⟩ := purge_eq hr.live hrange
  refine ⟨{ s with root := s.purgedRoot id }, by simp [call, hpurge, Call.answer], ?_⟩
  constructor
  · exact hr.live.purged hbelow rfl
  · exact hr.min_eq
  · exact hr.max_eq
  · intro i
    show h.opened i = true ↔ s.purgedRoot id i ≠ .null
    rw [hr.opened_iff i, purgedRoot]
    by_cases hi : i = PT_HIGH id
    · subst hi
      rw [Function.update_self]
      cases s.root (PT_HIGH id) <;> simp [Child.map]
    · rw [Function.update_of_ne hi]
      split_ifs with hlt
      · simp [hbelow i hlt, Child.delete]
      · rfl
  · funext k
    rw [slot_purged hbelow rfl k, hr.slot_eq]
    rfl
  · intro k hk
    simp only [History.step, Call.act] at hk
    split_ifs at hk with hlt
    · cases hk
    · exact hr.le_top k hk

theorem Refines.not_holds_purged (hr : Refines s h) (hid : id ≤ h.top) {i : BitVec 8}
    (hi : i < PT_HIGH id) (hopened : h.opened i = true) {s' : PageTable V} {answer : Answer V}
    (hcall : s.call (.purge id) = .ok (answer, s')) (m : IdMap V) : ¬s'.Holds m := by
  have hrange : s.outOfRange id = false := by
    rw [hr.outOfRange_eq]
    exact decide_eq_false (BitVec.not_lt.mpr hid)
  obtain ⟨values, hpurge⟩ := purge_eq hr.live hrange
  simp only [call, hpurge, Exec.ok_bind, Exec.pure_eq, Except.ok.injEq, Prod.mk.injEq] at hcall
  obtain ⟨-, rfl⟩ := hcall
  intro hholds
  -- an id behind the deleted table
  have hlt := i.isLt
  obtain ⟨k, hhigh⟩ : ∃ k : BitVec 32, PT_HIGH k = i := by
    refine ⟨BitVec.ofNat 32 (i.toNat * 2 ^ 24), BitVec.eq_of_toNat_eq ?_⟩
    rw [toNat_PT_HIGH, BitVec.toNat_ofNat]
    omega
  have hbelow : k < id := by
    rw [lt_iff_parts, hhigh]
    exact .inl hi
  have hfreed : s.purgedRoot id i = .freed := by
    have hne : i ≠ PT_HIGH id := fun h => by
      subst h
      exact BitVec.lt_irrefl _ hi
    have hi : i.toNat < (PT_HIGH id).toNat := hi
    rw [purgedRoot, Function.update_of_ne hne, if_pos hi]
    cases hroot : s.root i with
    | null => exact absurd hroot ((hr.opened_iff i).mp hopened)
    | freed => exact absurd hroot (hr.live.root i)
    | table mid => rfl
  have hget := hholds.get k
  have hin : ¬h.top < k := by
    rw [BitVec.lt_def] at hbelow ⊢
    rw [BitVec.le_def] at hid
    omega
  simp [get, outOfRange, hr.min_eq, hr.max_eq, hin, findLow, hhigh, hfreed, follow] at hget
  cases hget

/-! ## All calls -/

theorem Refines.purge_above (hr : Refines s h) (hid : ¬id ≤ h.top) :
    s.call (.purge id) = .ok (.nothing, s) := by
  have hrange : s.outOfRange id = true := by
    rw [hr.outOfRange_eq]
    exact decide_eq_true (BitVec.not_le.mp hid)
  simp [call, purge, hrange]

theorem Refines.allows_of_holds (hr : Refines s h) {answer : Answer V} {s' : PageTable V}
    (hcall : s.call c = .ok (answer, s')) (hholds : s'.Holds (c.act h.map)) : h.Allows c := by
  cases c with
  | set _ _ => trivial
  | update _ _ => trivial
  | erase _ => trivial
  | purge id =>
    rw [History.allows_purge]
    split_ifs with hid
    · intro i hi
      by_contra hopened
      exact hr.not_holds_purged hid hi (by simpa using hopened) hcall _ hholds
    · intro k
      cases (hr.purge_above hid).symm.trans hcall
      -- everything is below the id, and nothing was taken away
      by_cases hk : k < id
      · have hget := hholds.get k
        rw [hr.get_eq] at hget
        simpa [Call.act, hk] using hget
      · refine hr.map_eq_none (BitVec.not_le.mp fun hle => hid ?_)
        rw [BitVec.lt_def] at hk
        rw [BitVec.le_def] at hle ⊢
        omega

theorem Refines.keeps (hr : Refines s h) (hallows : h.Allows c) : Keeps s h c := by
  cases c with
  | set id data => exact hr.set_keeps id data
  | update id data => exact hr.update_keeps id data
  | erase id => exact hr.erase_keeps id
  | purge id =>
    rw [History.allows_purge] at hallows
    split_ifs at hallows with hid
    · exact hr.purge_keeps hid hallows
    · have hsame : h.step (.purge id) = h := by
        have hact : (Call.purge id).act h.map = h.map := by
          funext k
          simp [Call.act, hallows]
        show { h with map := (Call.purge id).act h.map } = h
        rw [hact]
      exact ⟨s, hr.purge_above hid, hsame.symm ▸ hr⟩

theorem holds_of_conforms {cs : List (Call V)} (hconforms : s.Conforms m cs) : s.Holds m := by
  cases cs with
  | nil => exact hconforms
  | cons c cs => exact hconforms.1

theorem Refines.conforms_iff (hr : Refines s h) (cs : List (Call V)) :
    s.Conforms h.map cs ↔ h.Fits cs := by
  induction cs generalizing s h with
  | nil => exact hr.holds_iff
  | cons c cs ih =>
    have hmap : (h.step c).map = c.act h.map := by cases c <;> rfl
    unfold Conforms History.Fits
    rw [hr.holds_iff]
    refine and_congr_right fun _ => ?_
    constructor
    · rintro ⟨answer, s', hcall, -, hconforms⟩
      have hallows := hr.allows_of_holds hcall (holds_of_conforms hconforms)
      obtain ⟨s'', hcall', hr'⟩ := hr.keeps hallows
      cases hcall.symm.trans hcall'
      exact ⟨hallows, (ih hr').mp (hmap ▸ hconforms)⟩
    · rintro ⟨hallows, hfits⟩
      obtain ⟨s', hcall, hr'⟩ := hr.keeps hallows
      exact ⟨_, s', hcall, rfl, hmap ▸ (ih hr').mpr hfits⟩

theorem refines_new : Refines ({} : PageTable V) {} := by
  constructor
  · exact ⟨fun _ => nofun, fun _ _ h => nomatch h⟩
  · rfl
  · rfl
  · exact fun _ => by simp
  · rfl
  · nofun

/-- A new page table behaves like a map under a list of calls if and only if these fit. -/
theorem conforms_iff_fits (cs : List (Call V)) :
    ({} : PageTable V).Conforms (fun _ => none) cs ↔ ({} : History V).Fits cs :=
  refines_new.conforms_iff cs

/-- The only id is not 0. -/
theorem not_conforms_set : ¬({} : PageTable Nat).Conforms (fun _ => none) [.set 5 (some 1)] := by
  rintro ⟨-, answer, s', hcall, -, hholds⟩
  cases hcall
  obtain ⟨v, hv, hfirst⟩ := hholds.first
  cases hv
  obtain ⟨hempty, -⟩ | ⟨id, hid, hvalue, -⟩ := hfirst
  · cases hempty 5
  · rw [← hvalue] at hid
    cases hid

end PageTable

end DBStream.Native.Util
