import DBStream.Native.TableIdTree
import Mathlib.Tactic.Linarith

/-!
# The nodes of the tree of the table ids

A node of the tree holds the wraps of the table numbers in its range (`IdNode.Holds`).  `put`
changes the wraps of one number (`put_spec`).  The number of a child is cut to 16 bits, so what
`find` looks at for a number is the place of the number's remainder (`find_spec`).
-/

namespace DBStream.Native.Meta

variable {T : Type}

/-! ## Numbers -/

section

variable {s id : Nat}

theorem two_pow_mul_nine (level : Nat) : 2 ^ (level * 9) = 512 ^ level := by
  rw [Nat.mul_comm, pow_mul]
  norm_num

theorem slotOf_eq (level : Nat) (hs : s ≤ id) (hid : id < 2 ^ 64) :
    slotOf s level id = (id - s) / 512 ^ level % 65536 := by
  have hmod : (id + 2 ^ 64 - s) % 2 ^ 64 = id - s := by omega
  rw [slotOf, hmod, Nat.shiftRight_eq_div_pow, two_pow_mul_nine]
  norm_num

theorem childStartId_eq {level cid : Nat} (hcid : cid * 512 ^ level < 2 ^ 31) (hlevel : level ≤ 3)
    (hs : s < 2 ^ 31) : childStartId s level cid = s + cid * 512 ^ level := by
  have hshift : (1 <<< (level * 9 % 32) : Nat) = 512 ^ level := by
    rw [Nat.mod_eq_of_lt (by omega), Nat.one_shiftLeft, two_pow_mul_nine]
  have hpow : 512 ^ level < 2 ^ 31 :=
    lt_of_le_of_lt (Nat.pow_le_pow_right (by omega) hlevel) (by decide)
  have hone : toInt32 ((512 ^ level : Nat) : Int) = ((512 ^ level : Nat) : Int) := by
    generalize 512 ^ level = b at hpow
    unfold toInt32
    omega
  rw [childStartId, hshift, hone, ← Int.natCast_mul]
  generalize cid * 512 ^ level = b at hcid
  unfold toInt32
  omega

theorem mod_radix (d b : Nat) : d % (b * 65536) = d / b % 65536 * b + d % b := by
  rw [Nat.mod_mul]
  ring

private theorem mod_radix_child (d a : Nat) :
    (d - d / (a * 512) % 65536 * (a * 512)) % (a * 65536) = d % (a * 512) := by
  have hsplit := Nat.div_add_mod d (a * 512)
  have hhigh := Nat.div_add_mod (d / (a * 512)) 65536
  have hsub : d - d / (a * 512) % 65536 * (a * 512) =
      a * 65536 * (512 * (d / (a * 512) / 65536)) + d % (a * 512) := by
    apply Nat.sub_eq_of_eq_add
    rw [← hhigh, Nat.mul_add] at hsplit
    linarith
  rw [hsub, Nat.mul_add_mod]
  by_cases ha : a = 0
  · simp [ha]
  · have hpos : 0 < a * 512 := Nat.mul_pos (Nat.pos_of_ne_zero ha) (by norm_num)
    have hlt : d % (a * 512) < a * 512 := Nat.mod_lt d hpos
    exact Nat.mod_eq_of_lt (by linarith)

theorem slot_lt_iff {d b : Nat} (hb : 0 < b) : d / b % 65536 < 512 ↔ d % (b * 65536) < b * 512 := by
  rw [mod_radix]
  have hlt := Nat.mod_lt d hb
  generalize d / b % 65536 = cid
  constructor
  · intro hcid
    have := Nat.mul_le_mul_right b (show cid + 1 ≤ 512 by omega)
    linarith
  · intro h
    by_contra hcid
    have := Nat.mul_le_mul_right b (show 512 ≤ cid by omega)
    generalize d % b = r at h
    linarith

end

namespace IdNode

/-! ## What a node holds -/

/-- A node whose first number is `s` holds the wraps `w` of the numbers in its range. -/
def Holds : (level : Nat) → Nat → IdNode T level → (Nat → List T) → Prop
  | 0, s, (n : Node (List T)), w => n.startId = s ∧ ∀ cid < 512, n.child cid = w (s + cid)
  | level + 1, s, (n : Node (Option (IdNode T level))), w =>
    n.startId = s ∧ ∀ cid < 512,
      (n.child cid = none → ∀ r < 512 ^ (level + 1), w (s + cid * 512 ^ (level + 1) + r) = []) ∧
      ∀ c, n.child cid = some c → Holds level (s + cid * 512 ^ (level + 1)) c w

theorem Holds.congr {level s : Nat} {n : IdNode T level} {w w' : Nat → List T}
    (h : Holds level s n w) (hw : ∀ r < 512 ^ (level + 1), w' (s + r) = w (s + r)) :
    Holds level s n w' := by
  induction level generalizing s with
  | zero =>
    obtain ⟨hstart, hchild⟩ := h
    exact ⟨hstart, fun cid hcid => by rw [hchild cid hcid, hw cid hcid]⟩
  | succ level ih =>
    obtain ⟨hstart, hchild⟩ := h
    refine ⟨hstart, fun cid hcid => ?_⟩
    -- the range of a child is in that of the node
    have hsub : ∀ r < 512 ^ (level + 1), cid * 512 ^ (level + 1) + r < 512 ^ (level + 1 + 1) := by
      intro r hr
      have := Nat.mul_le_mul_right (512 ^ (level + 1)) (show cid + 1 ≤ 512 by omega)
      rw [Nat.pow_succ 512 (level + 1)]
      linarith
    obtain ⟨hnone, hsome⟩ := hchild cid hcid
    constructor
    · intro hc r hr
      rw [Nat.add_assoc, hw _ (hsub r hr), ← Nat.add_assoc, hnone hc r hr]
    · intro c hc
      apply ih (hsome c hc)
      intro r hr
      rw [Nat.add_assoc, hw _ (hsub r hr)]

theorem holds_empty {level s : Nat} {w : Nat → List T}
    (hw : ∀ r < 512 ^ (level + 1), w (s + r) = []) : Holds level s (empty level s) w := by
  cases level with
  | zero => exact ⟨rfl, fun cid hcid => (hw cid hcid).symm⟩
  | succ level =>
    refine ⟨rfl, fun cid hcid => ⟨fun _ r hr => ?_, fun c hc => nomatch hc⟩⟩
    rw [Nat.add_assoc]
    apply hw
    have := Nat.mul_le_mul_right (512 ^ (level + 1)) (show cid + 1 ≤ 512 by omega)
    rw [Nat.pow_succ 512 (level + 1)]
    linarith

variable [HasMetaId T] {level s id : Nat} {n : IdNode T level} {w : Nat → List T}

/-- The assertion about the wraps that are found for a number. -/
def checked (id : Nat) : List T → Exec (List T)
  | [] => .ok []
  | m :: rest => if tableID (m_id m) = id then .ok (m :: rest) else .error .assertFailed

/-- `find` in a node: the slot of the id, or nothing behind the range of the node. -/
theorem find_spec (h : Holds level s n w) (hs : s ≤ id) (hid : id < 2 ^ 64) :
    find id level n =
      if (id - s) % (512 ^ level * 65536) < 512 ^ (level + 1) then
        checked id (w (s + (id - s) % (512 ^ level * 65536)))
      else .ok [] := by
  induction level generalizing s with
  | zero =>
    obtain ⟨hstart, hchild⟩ := h
    have hslot := slotOf_eq 0 hs hid
    simp only [Nat.pow_zero, Nat.div_one, Nat.one_mul, Nat.zero_add, Nat.pow_one] at hslot ⊢
    simp only [find, hstart, hslot]
    by_cases hlt : (id - s) % 65536 < 512
    · rw [if_neg (by omega), if_pos hlt, hchild _ hlt]
      rfl
    · rw [if_pos (by omega), if_neg hlt]
  | succ level ih =>
    obtain ⟨hstart, hchild⟩ := h
    have hslot := slotOf_eq (level + 1) hs hid
    have hpos : 0 < 512 ^ (level + 1) := Nat.pow_pos (by norm_num)
    have hin := slot_lt_iff (d := id - s) hpos
    have hradix := mod_radix (id - s) (512 ^ (level + 1))
    rw [← hslot, ← Nat.pow_succ] at hin
    rw [← hslot] at hradix
    simp only [find, hstart]
    generalize hcid : slotOf s (level + 1) id = cid at hin hradix hslot
    by_cases hlt : cid < 512
    · rw [if_neg (by omega), if_pos (hin.mp hlt)]
      obtain ⟨hnone, hsome⟩ := hchild cid hlt
      cases hc : Node.child n cid with
      | none =>
        -- nothing is there for the whole range
        rw [hradix, ← Nat.add_assoc, hnone hc _ (Nat.mod_lt _ hpos)]
        rfl
      | some c =>
        have hle : cid * 512 ^ (level + 1) ≤ id - s := by
          rw [hslot]
          exact le_trans (Nat.mul_le_mul_right _ (Nat.mod_le _ _)) (Nat.div_mul_le_self _ _)
        have hrest : (id - (s + cid * 512 ^ (level + 1))) % (512 ^ level * 65536) =
            (id - s) % 512 ^ (level + 1) := by
          have := mod_radix_child (id - s) (512 ^ level)
          rw [← Nat.pow_succ, ← hslot] at this
          rw [← this, Nat.sub_sub]
        have hfound := ih (hsome c hc) (by omega)
        rw [hrest, if_pos (Nat.mod_lt _ hpos)] at hfound
        rw [hradix, ← Nat.add_assoc]
        exact hfound
    · rw [if_pos (by omega), if_neg (fun h => hlt (hin.mpr h))]

private theorem put_leaf {cid : Nat} (meta' : T) (n : Node (List T)) (hstart : n.startId = s)
    (hslot : slotOf s 0 id = cid) (hcid : cid < 512) :
    put id meta' 0 n = do
      let w ← pushVersion id meta' (n.child cid)
      return n.setChild cid w := by
  subst hstart hslot
  exact if_neg (Nat.not_le.mpr hcid)

private theorem put_inner {level cid : Nat} (meta' : T) (n : Node (Option (IdNode T level)))
    (hstart : n.startId = s) (hslot : slotOf s (level + 1) id = cid) (hcid : cid < 512) :
    put id meta' (level + 1) n = do
      let c ← put id meta' level
        ((n.child cid).getD (empty level (childStartId s (level + 1) cid)))
      return n.setChild cid (some c) := by
  subst hstart hslot
  exact if_neg (Nat.not_le.mpr hcid)

/-- `put` in a node changes the slot of the id only. -/
theorem put_spec (meta' : T) (h : Holds level s n w) (hs : s ≤ id)
    (hrange : id - s < 512 ^ (level + 1)) (hid : id < 2 ^ 31) (hlevel : level ≤ 3) :
    ∃ f : List T → IdNode T level,
      (put id meta' level n = do
        let w' ← pushVersion id meta' (w id)
        return f w') ∧
      ∀ w', Holds level s (f w') (Function.update w id w') := by
  induction level generalizing s with
  | zero =>
    obtain ⟨hstart, hchild⟩ := h
    have hslot := slotOf_eq 0 hs (by omega)
    rw [Nat.pow_zero, Nat.div_one, Nat.mod_eq_of_lt (by omega)] at hslot
    have hat : s + (id - s) = id := by omega
    refine ⟨fun w' => Node.setChild n (id - s) w', ?_, fun w' => ⟨hstart, fun cid hcid => ?_⟩⟩
    · apply (put_leaf meta' n hstart hslot (by omega)).trans
      rw [hchild _ (by omega), hat]
      rfl
    · by_cases heq : cid = id - s
      · simp [Node.setChild, heq, hat]
      · simp [Node.setChild, heq, show s + cid ≠ id by omega, hchild cid hcid]
  | succ level ih =>
    obtain ⟨hstart, hchild⟩ := h
    have hslot := slotOf_eq (level + 1) hs (by omega)
    have hpos : 0 < 512 ^ (level + 1) := Nat.pow_pos (by norm_num)
    have hcid : (id - s) / 512 ^ (level + 1) < 512 := by
      rw [Nat.div_lt_iff_lt_mul hpos, Nat.mul_comm, ← Nat.pow_succ]
      exact hrange
    rw [Nat.mod_eq_of_lt (by omega)] at hslot
    have hsplit := Nat.div_add_mod' (id - s) (512 ^ (level + 1))
    have hmod := Nat.mod_lt (id - s) hpos
    generalize (id - s) / 512 ^ (level + 1) = cid at hslot hcid hsplit
    generalize (id - s) % 512 ^ (level + 1) = r at hsplit hmod
    have hstartId : childStartId s (level + 1) cid = s + cid * 512 ^ (level + 1) :=
      childStartId_eq (by omega) hlevel (by omega)
    -- the child, a new one if there is none, holds its part of the range
    have hc : Holds level (s + cid * 512 ^ (level + 1))
        ((Node.child n cid).getD (empty level (s + cid * 512 ^ (level + 1)))) w := by
      obtain ⟨hnone, hsome⟩ := hchild cid hcid
      cases hc : Node.child n cid with
      | none => exact holds_empty (hnone hc)
      | some c => exact hsome c hc
    obtain ⟨f, hput, hholds⟩ := ih hc (by omega) (by omega) (by omega)
    refine ⟨fun w' => Node.setChild n cid (some (f w')), ?_, fun w' => ⟨hstart, ?_⟩⟩
    · apply (put_inner meta' n hstart hslot hcid).trans
      rw [hstartId, hput]
      cases pushVersion id meta' (w id) <;> rfl
    · intro cid' hcid'
      by_cases heq : cid' = cid
      · subst heq
        simp only [Node.setChild, Function.update_self]
        exact ⟨fun h => (nomatch h), fun c hc => Option.some.inj hc ▸ hholds w'⟩
      · simp only [Node.setChild, Function.update_of_ne heq]
        obtain ⟨hnone, hsome⟩ := hchild cid' hcid'
        -- the number is not in the range of another child
        have hother : ∀ r' < 512 ^ (level + 1), s + cid' * 512 ^ (level + 1) + r' ≠ id := by
          intro r' hr' hsame
          have hdiv : ∀ a b : Nat, b < 512 ^ (level + 1) →
              (a * 512 ^ (level + 1) + b) / 512 ^ (level + 1) = a := by
            intro a b hb
            rw [Nat.add_comm, Nat.add_mul_div_right _ _ hpos, Nat.div_eq_of_lt hb, Nat.zero_add]
          have hboth : cid' * 512 ^ (level + 1) + r' = cid * 512 ^ (level + 1) + r := by omega
          have := congrArg (fun x => x / 512 ^ (level + 1)) hboth
          simp only [hdiv cid' r' hr', hdiv cid r hmod] at this
          exact heq this
        constructor
        · intro hc r' hr'
          rw [Function.update_of_ne (hother r' hr'), hnone hc r' hr']
        · intro c hc
          apply (hsome c hc).congr
          intro r' hr'
          rw [Function.update_of_ne (hother r' hr')]

end IdNode

end DBStream.Native.Meta
