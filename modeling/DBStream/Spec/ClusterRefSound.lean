import DBStream.Native.ClusterRef
import Mathlib.Data.Multiset.Count
import Mathlib.Data.Nat.Bitwise

/-!
# What a reference counts

Between the calls `m_ref` should be the number of users, `m_data` should stay loaded as long as
there is one, and a `needFree` should not be forgotten.  `RefInv` says in which of seven ways the
reference and the calls in progress fit together.  Three things break it: a load that fails leaves
`IN_LOAD` behind, a `needFree` during a clear is overwritten by the store at its end, and the count
has only 29 bits.
-/

namespace DBStream.Native.CLUSTER

/-! ## The bits of a count -/

/-- The count `n` with the bit of `needFree`. -/
def encode (n : Nat) (needFree : Bool) : Nat := n + if needFree then NEED_FREE else 0

section

variable {n : Nat} (hn : n < 2 ^ 29)

include hn

theorem encode_and_needFree (f : Bool) : encode n f &&& NEED_FREE = if f then NEED_FREE else 0 := by
  rw [show NEED_FREE = 2 ^ 29 from rfl, Nat.and_two_pow, Nat.testBit_eq_decide_div_mod_eq]
  unfold encode NEED_FREE
  cases f with
  | false =>
    simp only [Bool.false_eq_true, if_false, Nat.add_zero]
    rw [decide_eq_false (by omega)]
    rfl
  | true =>
    simp only [if_true]
    rw [decide_eq_true (by omega)]
    rfl

theorem withoutNeedFree_encode (f : Bool) : withoutNeedFree (encode n f) = n := by
  have hsplit : encode n f = 2 ^ 29 * f.toNat + n := by
    unfold encode NEED_FREE
    cases f with
    | false => simp
    | true => simp [Nat.add_comm]
  apply Nat.eq_of_testBit_eq
  intro i
  unfold withoutNeedFree
  rw [hsplit, show 0xdfffffff = 2 ^ 29 * 6 + (2 ^ 29 - 1) from rfl, Nat.testBit_and,
    Nat.testBit_two_pow_mul_add _ hn, Nat.testBit_two_pow_mul_add _ (by decide),
    Nat.testBit_two_pow_sub_one]
  by_cases hi : i < 29
  · simp [hi]
  · -- above the count there is at most the bit that the mask leaves out
    have hhigh : n.testBit i = false :=
      Nat.testBit_lt_two_pow (Nat.lt_of_lt_of_le hn (Nat.pow_le_pow_right (by decide) (by omega)))
    have hzero : f.toNat &&& 6 = 0 := by cases f <;> rfl
    rw [if_neg hi, if_neg hi, ← Nat.testBit_and, hzero, hhigh, Nat.zero_testBit]

private theorem encode_or_needFree (f : Bool) : encode n f ||| NEED_FREE = encode n true := by
  have hor : n ||| NEED_FREE = encode n true := by
    have := Nat.two_pow_add_eq_or_of_lt hn 1
    rw [Nat.or_comm, show NEED_FREE = 2 ^ 29 * 1 from rfl, ← this]
    simp [encode, NEED_FREE, Nat.add_comm]
  cases f with
  | false => simpa [encode] using hor
  | true => rw [← hor, Nat.or_assoc, Nat.or_self]

end

/-! ## The invariant -/

/-- The operations that only one call can be in front of. -/
def RefPc.busy : RefPc → Bool
  | .load | .loadFailed | .loadDone | .close _ | .clearDone | .delete => true
  | _ => false

/-- A call of `unuse` that still counts as a user in `m_ref`. -/
def RefPc.leaving : RefPc → Bool
  | .unuseLoad | .unuseCas _ => true
  | _ => false

/-- A call that is not busy; what `use` has read is a count without `NEED_FREE`. -/
def RefPc.Quiet (pc : RefPc) : Prop :=
  pc.busy = false ∧ ∀ r, pc = .useCas r → r &&& NEED_FREE = 0 ∧ r ≠ IN_CLEAR ∧ r ≠ IN_LOAD

/-- What `m_ref` is beside the busy call and `leaving` calls that leave. -/
inductive RefShape (s : RefState) : Option RefPc → Nat → Prop where
  | counting {n leaving : Nat} {f : Bool} (ref : s.m_ref = encode n f) (bound : n < 2 ^ 29)
      (count : n = s.uses + leaving) (users : f = true → 0 < n) (loaded : 0 < n → s.loaded = true)
      (kept : s.deleted = false) (asked : s.freeAsked = true → f = true) : RefShape s none leaving
  | loading (ref : s.m_ref = IN_LOAD ∨ s.m_ref = IN_LOAD ||| NEED_FREE) (uses : s.uses = 0)
      (kept : s.deleted = false) (asked : s.freeAsked = false) : RefShape s (some .load) 0
  | loaded (ref : s.m_ref = IN_LOAD ∨ s.m_ref = IN_LOAD ||| NEED_FREE) (uses : s.uses = 0)
      (loaded : s.loaded = true) (kept : s.deleted = false) (asked : s.freeAsked = false) :
      RefShape s (some .loadDone) 0
  | closing {f : Bool} (ref : s.m_ref = IN_CLEAR) (uses : s.uses = 0) (kept : s.deleted = false)
      (asked : s.freeAsked = true → f = true) : RefShape s (some (.close (encode 1 f))) 0
  | cleared (ref : s.m_ref = IN_CLEAR) (uses : s.uses = 0) (kept : s.deleted = false)
      (asked : s.freeAsked = false) : RefShape s (some .clearDone) 0
  | dying (ref : s.m_ref = IN_CLEAR ∨ s.m_ref = NEED_FREE) (uses : s.uses = 0)
      (kept : s.deleted = false) : RefShape s (some .delete) 0
  | dead (ref : s.m_ref = IN_CLEAR ∨ s.m_ref = NEED_FREE) (uses : s.uses = 0)
      (gone : s.deleted = true) : RefShape s none 0

/-- At most one call is busy, and `m_ref` fits the calls. -/
def RefInv (s : RefState) : Prop :=
  ∃ (busy : Option RefPc) (quiet : Multiset RefPc) (leaving : Nat),
    s.calls = busy.elim quiet (fun pc => pc ::ₘ quiet) ∧ (∀ pc ∈ quiet, pc.Quiet) ∧
      quiet.countP (fun pc => pc.leaving = true) = leaving ∧ RefShape s busy leaving

/-- No load fails, no `needFree` comes during a clear, and there are less than `2 ^ 29` users. -/
def RefFits (s : RefState) (pc : RefPc) (ok : Bool) : Prop :=
  (pc = .load → ok = true) ∧ (pc = .needFree → withoutNeedFree s.m_ref ≠ IN_CLEAR) ∧
    ∀ r, pc = .useCas r → r + 1 < 2 ^ 29

/-- What is asked of a reference. -/
structure RefSound (s : RefState) : Prop where
  /-- Between the calls the count is the number of users. -/
  count : s.calls = 0 → s.deleted = false → withoutNeedFree s.m_ref = s.uses
  /-- What is used is loaded. -/
  loaded : 0 < s.uses → s.loaded = true ∧ s.deleted = false
  /-- A `needFree` is done, or still to be done. -/
  asked : s.calls = 0 → s.freeAsked = true → s.deleted = true ∨ s.m_ref &&& NEED_FREE ≠ 0

theorem RefInv.sound {s : RefState} (h : RefInv s) : RefSound s := by
  obtain ⟨busy, quiet, leaving, hcalls, -, hleaving, hshape⟩ := h
  constructor
  · intro hnone hkept
    cases hshape with
    | @counting n _ f ref bound count =>
      rw [hcalls] at hnone
      have hquiet : quiet = 0 := hnone
      rw [hquiet, Multiset.countP_zero] at hleaving
      rw [ref, withoutNeedFree_encode bound, count, ← hleaving, Nat.add_zero]
    | dead _ _ gone =>
      rw [hkept] at gone
      cases gone
    | loading => simp [hcalls] at hnone
    | loaded => simp [hcalls] at hnone
    | closing => simp [hcalls] at hnone
    | cleared => simp [hcalls] at hnone
    | dying => simp [hcalls] at hnone
  · intro huses
    cases hshape with
    | counting ref bound count users loaded kept asked => exact ⟨loaded (by omega), kept⟩
    | loading _ uses => omega
    | loaded _ uses => omega
    | closing _ uses => omega
    | cleared _ uses => omega
    | dying _ uses => omega
    | dead _ uses => omega
  · intro hnone hasked
    cases hshape with
    | counting ref bound count users loaded kept asked =>
      right
      rw [ref, encode_and_needFree bound, asked hasked]
      decide
    | dead _ _ gone => exact Or.inl gone
    | loading => simp [hcalls] at hnone
    | loaded => simp [hcalls] at hnone
    | closing => simp [hcalls] at hnone
    | cleared => simp [hcalls] at hnone
    | dying => simp [hcalls] at hnone

/-! ## Operations -/

section

variable {s s' : RefState} {pc : RefPc} {ok : Bool} {next busy : Option RefPc} {leaving : Nat}

theorem RefShape.withCalls (h : RefShape s busy leaving) (calls : Multiset RefPc) :
    RefShape { s with calls := calls } busy leaving := by
  cases h with
  | counting ref bound count users loaded kept asked =>
    exact .counting ref bound count users loaded kept asked
  | loading ref uses kept asked => exact .loading ref uses kept asked
  | loaded ref uses loaded kept asked => exact .loaded ref uses loaded kept asked
  | closing ref uses kept asked => exact .closing ref uses kept asked
  | cleared ref uses kept asked => exact .cleared ref uses kept asked
  | dying ref uses kept => exact .dying ref uses kept
  | dead ref uses gone => exact .dead ref uses gone

theorem RefShape.counting_of_leaving (h : RefShape s busy (leaving + 1)) :
    busy = none ∧ ∃ n f, s.m_ref = encode (n + 1) f ∧ n + 1 < 2 ^ 29 ∧ n = s.uses + leaving ∧
      s.loaded = true ∧ s.deleted = false ∧ (s.freeAsked = true → f = true) := by
  cases h with
  | @counting n _ f ref bound count users loaded kept asked =>
    obtain ⟨m, rfl⟩ : ∃ m, n = m + 1 := ⟨n - 1, by omega⟩
    exact ⟨rfl, m, f, ref, bound, by omega, loaded (by omega), kept, asked⟩

theorem RefPc.Quiet.ne_mark {r : Nat} (h : (RefPc.useCas r).Quiet) :
    ¬(r = IN_LOAD ∨ r = IN_LOAD ||| NEED_FREE) ∧ ¬(r = IN_CLEAR ∨ r = NEED_FREE) := by
  obtain ⟨-, hread⟩ := h
  obtain ⟨hbit, hclear, hload⟩ := hread _ rfl
  constructor
  · rintro (rfl | rfl)
    · exact hload rfl
    · exact absurd hbit (by decide)
  · rintro (rfl | rfl)
    · exact hclear rfl
    · exact absurd hbit (by decide)

theorem RefShape.counting_of_cas (h : RefShape s busy leaving)
    (hquiet : (RefPc.useCas s.m_ref).Quiet) :
    busy = none ∧ s.m_ref < 2 ^ 29 ∧ s.m_ref = s.uses + leaving ∧
      (0 < s.m_ref → s.loaded = true) ∧ s.deleted = false ∧ s.freeAsked = false := by
  obtain ⟨hload, hclear⟩ := hquiet.ne_mark
  cases h with
  | @counting n _ f ref bound count users loaded kept asked =>
    have hf : f = false := by
      have hbit := (hquiet.2 _ rfl).1
      rw [ref, encode_and_needFree bound] at hbit
      cases f with
      | false => rfl
      | true => exact absurd hbit (by decide)
    subst hf
    have href : s.m_ref = n := by
      rw [ref]
      simp [encode]
    rw [href]
    exact ⟨rfl, bound, count, loaded, kept, Bool.eq_false_iff.mpr fun h => nomatch asked h⟩
  | loading ref uses kept asked => exact absurd ref hload
  | loaded ref uses loaded kept asked => exact absurd ref hload
  | closing ref uses kept asked => exact absurd (Or.inl ref) hclear
  | cleared ref uses kept asked => exact absurd (Or.inl ref) hclear
  | dying ref uses kept => exact absurd ref hclear
  | dead ref uses gone => exact absurd ref hclear

/-- The part a call has in the count. -/
def RefPc.weight (pc : RefPc) : Nat := if pc.leaving then 1 else 0

/-- What a quiet call may do: it stays quiet, or it becomes the busy one. -/
def QuietStep (s' : RefState) (busy next : Option RefPc) (leaving : Nat) : Prop :=
  ((∀ q ∈ next, q.Quiet) ∧ RefShape s' busy (leaving + next.elim 0 RefPc.weight)) ∨
    busy = none ∧ ∃ q, next = some q ∧ RefShape s' (some q) leaving

/-- A `use` that has not entered the load keeps the shape. -/
theorem quiet_use (hshape : RefShape s busy leaving) (hquiet : pc.Quiet) (hfits : RefFits s pc ok)
    (hop : s.operate ok pc = some (s', next)) (hpc : pc = .useLoad ∨ ∃ r, pc = .useCas r) :
    QuietStep s' busy next leaving := by
  rcases hpc with rfl | ⟨r, rfl⟩
  · dsimp only [RefState.operate] at hop
    split at hop
    · cases hop
    · rename_i hbit
      split at hop
      · cases hop
        refine Or.inl ⟨?_, hshape⟩
        intro q hq
        cases hq
        exact ⟨rfl, fun r h => nomatch h⟩
      · rename_i hmark
        cases hop
        refine Or.inl ⟨?_, hshape⟩
        intro q hq
        cases hq
        refine ⟨rfl, ?_⟩
        intro r hr
        cases hr
        exact ⟨by simpa using hbit, fun h => hmark (Or.inl h), fun h => hmark (Or.inr h)⟩
  · dsimp only [RefState.operate] at hop
    split at hop
    · rename_i hcas
      obtain ⟨-, rfl⟩ := hcas
      obtain ⟨rfl, hbound, hcount, hloaded, hkept, hasked⟩ := hshape.counting_of_cas hquiet
      split at hop
      · -- the first user loads
        cases hop
        refine Or.inr ⟨rfl, .load, rfl, ?_⟩
        obtain rfl : leaving = 0 := by omega
        exact .loading (Or.inl rfl) (show s.uses = 0 by omega) hkept hasked
      · rename_i hpos
        cases hop
        refine Or.inl ⟨fun q hq => (nomatch hq), ?_⟩
        have hlt := hfits.2.2 _ rfl
        refine .counting (n := s.m_ref + 1) (f := false) ?_ hlt ?_ (fun h => nomatch h) ?_ hkept ?_
        · show (s.m_ref + 1) % 2 ^ 32 = encode (s.m_ref + 1) false
          unfold encode
          simp only [Bool.false_eq_true, if_false]
          omega
        · show s.m_ref + 1 = s.uses + 1 + (leaving + 0)
          omega
        · exact fun _ => hloaded (by omega)
        · intro h
          rw [show s.freeAsked = true from h] at hasked
          cases hasked
    · cases hop
      refine Or.inl ⟨?_, hshape⟩
      intro q hq
      cases hq
      exact ⟨rfl, fun r h => nomatch h⟩

/-- An `unuse` before it closes keeps the shape, with one user less to leave. -/
theorem quiet_unuse (hshape : RefShape s busy (leaving + 1))
    (hop : s.operate ok pc = some (s', next)) (hpc : pc = .unuseLoad ∨ ∃ r, pc = .unuseCas r) :
    QuietStep s' busy next leaving := by
  obtain ⟨rfl, n, f, href, hbound, hcount, hloaded, hkept, hasked⟩ := hshape.counting_of_leaving
  -- a call that has not replaced `m_ref`
  have hretry : ∀ q : RefPc, q.leaving = true → (∀ r, q ≠ .useCas r) → q.busy = false →
      QuietStep s none (some q) leaving := by
    intro q hleaving hcas hbusy
    refine Or.inl ⟨?_, ?_⟩
    · intro q' hq'
      cases hq'
      exact ⟨hbusy, fun r h => absurd h (hcas r)⟩
    · simp only [Option.elim_some, RefPc.weight, hleaving, if_true]
      exact hshape
  rcases hpc with rfl | ⟨r, rfl⟩
  · cases hop
    exact hretry _ rfl (fun _ h => nomatch h) rfl
  · dsimp only [RefState.operate] at hop
    split at hop
    · rename_i hcas
      obtain ⟨-, rfl⟩ := hcas
      rw [href, withoutNeedFree_encode hbound] at hop
      split at hop
      · -- the last user clears
        cases hop
        obtain rfl : n = 0 := by omega
        obtain rfl : leaving = 0 := by omega
        refine Or.inr ⟨rfl, _, rfl, .closing rfl (show s.uses = 0 by omega) hkept hasked⟩
      · rename_i hmore
        obtain ⟨rfl, rfl⟩ := Prod.mk.inj (Option.some.inj hop)
        refine Or.inl ⟨fun q hq => (nomatch hq), ?_⟩
        have href' : (encode (n + 1) f + (2 ^ 32 - 1)) % 2 ^ 32 = encode n f := by
          unfold encode NEED_FREE
          cases f with
          | false =>
            simp only [Bool.false_eq_true, if_false]
            omega
          | true =>
            simp only [if_true]
            omega
        refine .counting (n := n) (f := f) href' (by omega) hcount ?_ (fun _ => hloaded) hkept
          hasked
        intro _
        omega
    · cases hop
      exact hretry _ rfl (fun _ h => nomatch h) rfl

/-- A load goes on under the mark of `needFree`. -/
theorem inLoad_needFree {r : Nat} (h : r = IN_LOAD ∨ r = IN_LOAD ||| NEED_FREE) :
    r ≠ 0 ∧ withoutNeedFree r = IN_LOAD ∧ r ||| NEED_FREE = IN_LOAD ||| NEED_FREE := by
  obtain rfl | rfl := h
  · decide
  · decide

/-- `needFree` keeps the shape outside of a clear. -/
theorem quiet_needFree (hshape : RefShape s busy leaving) (hfits : RefFits s .needFree ok)
    (hop : s.operate ok .needFree = some (s', next)) : QuietStep s' busy next leaving := by
  have hclear := hfits.2.1 rfl
  have hdone : ∀ q ∈ (none : Option RefPc), q.Quiet := fun q hq => nomatch hq
  cases hop
  cases hshape with
  | @counting n _ f ref bound count users loaded kept asked =>
    by_cases hzero : s.m_ref = 0
    · -- nobody uses it
      rw [if_pos hzero]
      obtain ⟨rfl, -⟩ : n = 0 ∧ f = false := by
        rw [hzero] at ref
        unfold encode NEED_FREE at ref
        cases f with
        | false => simp at ref; exact ⟨by omega, rfl⟩
        | true => simp at ref
      obtain rfl : leaving = 0 := by omega
      refine Or.inr ⟨rfl, .delete, rfl, .dying (Or.inr ?_) (show s.uses = 0 by omega) kept⟩
      rw [hzero, Nat.zero_or]
    · rw [if_neg hzero]
      refine Or.inl ⟨hdone, .counting (n := n) (f := true) ?_ bound count ?_ loaded kept
        fun _ => rfl⟩
      · show s.m_ref ||| NEED_FREE = _
        rw [ref, encode_or_needFree bound]
      · intro _
        by_contra hn
        obtain rfl : n = 0 := by omega
        cases f with
        | false => exact hzero ref
        | true => exact absurd (users rfl) hn
  | loading ref uses kept asked =>
    obtain ⟨hne, hload, hmarked⟩ := inLoad_needFree ref
    rw [if_neg hne]
    refine Or.inl ⟨hdone, .loading (Or.inr hmarked) uses kept ?_⟩
    show (s.freeAsked || decide _) = false
    simp [asked, hload]
  | loaded ref uses loaded kept asked =>
    obtain ⟨hne, hload, hmarked⟩ := inLoad_needFree ref
    rw [if_neg hne]
    refine Or.inl ⟨hdone, .loaded (Or.inr hmarked) uses loaded kept ?_⟩
    show (s.freeAsked || decide _) = false
    simp [asked, hload]
  | closing ref => exact absurd (by rw [ref]; decide) hclear
  | cleared ref => exact absurd (by rw [ref]; decide) hclear
  | dying ref uses kept =>
    rcases ref with ref | ref
    · exact absurd (by rw [ref]; decide) hclear
    · rw [if_neg (by rw [ref]; decide)]
      refine Or.inl ⟨hdone, .dying (Or.inr ?_) uses kept⟩
      rw [ref, Nat.or_self]
  | dead ref uses gone =>
    rcases ref with ref | ref
    · exact absurd (by rw [ref]; decide) hclear
    · rw [if_neg (by rw [ref]; decide)]
      refine Or.inl ⟨hdone, .dead (Or.inr ?_) uses gone⟩
      rw [ref, Nat.or_self]

private theorem quiet_step (hshape : RefShape s busy (leaving + pc.weight)) (hquiet : pc.Quiet)
    (hfits : RefFits s pc ok) (hop : s.operate ok pc = some (s', next)) :
    QuietStep s' busy next leaving := by
  cases pc with
  | useLoad => exact quiet_use hshape hquiet hfits hop (Or.inl rfl)
  | useCas r => exact quiet_use hshape hquiet hfits hop (Or.inr ⟨r, rfl⟩)
  | unuseLoad => exact quiet_unuse hshape hop (Or.inl rfl)
  | unuseCas r => exact quiet_unuse hshape hop (Or.inr ⟨r, rfl⟩)
  | needFree => exact quiet_needFree hshape hfits hop
  | load => exact nomatch hquiet.1
  | loadFailed => exact nomatch hquiet.1
  | loadDone => exact nomatch hquiet.1
  | close r => exact nomatch hquiet.1
  | clearDone => exact nomatch hquiet.1
  | delete => exact nomatch hquiet.1

theorem busy_step (hshape : RefShape s (some pc) leaving) (hfits : RefFits s pc ok)
    (hop : s.operate ok pc = some (s', next)) : RefShape s' next leaving := by
  cases hshape with
  | loading ref uses kept asked =>
    obtain rfl := hfits.1 rfl
    cases hop
    exact .loaded ref uses rfl kept asked
  | loaded ref uses loaded kept asked =>
    cases hop
    refine .counting (n := 1) (f := false) rfl (by decide) ?_ (fun h => nomatch h)
      (fun _ => loaded) kept ?_
    · show 1 = s.uses + 1 + 0
      omega
    · intro h
      rw [show s.freeAsked = true from h] at asked
      cases asked
  | @closing f ref uses kept asked =>
    cases f with
    | true =>
      cases hop
      exact .dying (Or.inl ref) uses kept
    | false =>
      cases hop
      exact .cleared ref uses kept (Bool.eq_false_iff.mpr fun h => nomatch asked h)
  | cleared ref uses kept asked =>
    cases hop
    refine .counting (n := 0) (f := false) rfl (by decide) ?_ (fun h => nomatch h)
      (fun h => absurd h (by decide)) kept ?_
    · show 0 = s.uses + 0
      omega
    · intro h
      rw [show s.freeAsked = true from h] at asked
      cases asked
  | dying ref uses kept =>
    cases hop
    exact .dead ref uses rfl

end

/-! ## Runs -/

variable {s s' : RefState} {pc : RefPc} {ok : Bool} {next : Option RefPc} {rest : Multiset RefPc}

private theorem refInv_start : RefInv {} :=
  ⟨none, 0, 0, rfl, fun pc h => absurd h (Multiset.notMem_zero pc), rfl,
    .counting (n := 0) (f := false) rfl (by decide) rfl (fun h => nomatch h)
      (fun h => absurd h (by decide)) rfl fun h => nomatch h⟩

theorem RefInv.begin (h : RefInv s) (pc : RefPc) (hquiet : pc.Quiet) (s₁ : RefState)
    (hcalls : s₁.calls = pc ::ₘ s.calls)
    (hshape : ∀ busy leaving, RefShape s busy leaving → RefShape s₁ busy (leaving + pc.weight)) :
    RefInv s₁ := by
  obtain ⟨busy, quiet, leaving, hs, hall, hleaving, hshape₀⟩ := h
  refine ⟨busy, pc ::ₘ quiet, leaving + pc.weight, ?_, ?_, ?_, hshape busy leaving hshape₀⟩
  · rw [hcalls, hs]
    cases busy with
    | none => rfl
    | some b => exact Multiset.cons_swap pc b quiet
  · intro q hq
    rcases Multiset.mem_cons.mp hq with rfl | hq
    · exact hquiet
    · exact hall q hq
  · rw [Multiset.countP_cons, hleaving]
    rfl

/-- Each operation of a call that fits keeps the invariant. -/
theorem RefInv.operate (h : RefInv s) (hin : s.calls = pc ::ₘ rest) (hfits : RefFits s pc ok)
    (hop : s.operate ok pc = some (s', next)) : RefInv (s'.proceed rest next) := by
  obtain ⟨busy, quiet, leaving, hcalls, hall, hleaving, hshape⟩ := h
  rw [hcalls] at hin
  -- the busy call, or a quiet one beside it
  have hquiet : ∀ quiet₀, quiet = pc ::ₘ quiet₀ →
      rest = busy.elim quiet₀ (fun b => b ::ₘ quiet₀) → RefInv (s'.proceed rest next) := by
    rintro quiet₀ rfl rfl
    rw [Multiset.countP_cons] at hleaving
    subst hleaving
    have hall₀ : ∀ q ∈ quiet₀, q.Quiet := fun q hq => hall q (Multiset.mem_cons_of_mem hq)
    rcases quiet_step hshape (hall pc (Multiset.mem_cons_self pc quiet₀)) hfits hop with
      ⟨hnext, hshape'⟩ | ⟨rfl, q, rfl, hshape'⟩
    · refine ⟨busy, next.elim quiet₀ (fun q => q ::ₘ quiet₀), _, ?_, ?_, ?_, hshape'.withCalls _⟩
      · show next.elim _ _ = _
        cases next with
        | none => rfl
        | some q =>
          cases busy with
          | none => rfl
          | some b => exact Multiset.cons_swap q b quiet₀
      · cases next with
        | none => exact hall₀
        | some q =>
          intro q' hq'
          rcases Multiset.mem_cons.mp hq' with rfl | hq'
          · exact hnext _ rfl
          · exact hall₀ q' hq'
      · cases next with
        | none => rfl
        | some q =>
          show Multiset.countP _ (q ::ₘ quiet₀) = _
          rw [Multiset.countP_cons]
          rfl
    · exact ⟨some q, quiet₀, _, rfl, hall₀, rfl, hshape'.withCalls _⟩
  cases busy with
  | none => exact hquiet rest hin rfl
  | some b =>
    rcases Multiset.cons_eq_cons.mp hin with ⟨rfl, rfl⟩ | ⟨-, quiet₀, rfl, rfl⟩
    · exact ⟨next, quiet, leaving, rfl, hall, hleaving, (busy_step hshape hfits hop).withCalls _⟩
    · exact hquiet quiet₀ rfl rfl

theorem RefRun.inv (hrun : RefRun RefFits s) : RefInv s := by
  induction hrun with
  | start => exact refInv_start
  | use run ih =>
    refine ih.begin .useLoad ⟨rfl, fun r h => nomatch h⟩ _ rfl ?_
    intro busy leaving hshape
    exact hshape.withCalls _
  | @unuse s uses run user ih =>
    refine ih.begin .unuseLoad ⟨rfl, fun r h => nomatch h⟩ _ rfl ?_
    intro busy leaving hshape
    cases hshape with
    | counting ref bound count users loaded kept asked =>
      refine .counting ref bound ?_ users loaded kept asked
      show _ = uses + (leaving + 1)
      omega
    | loading _ huses => omega
    | loaded _ huses => omega
    | closing _ huses => omega
    | cleared _ huses => omega
    | dying _ huses => omega
    | dead _ huses => omega
  | needFree run ih =>
    refine ih.begin .needFree ⟨rfl, fun r h => nomatch h⟩ _ rfl ?_
    intro busy leaving hshape
    exact hshape.withCalls _
  | operate run inProgress fits op ih => exact ih.operate inProgress fits op

/-- In every run without a failed load, without a `needFree` during a clear and with less than
    `2 ^ 29` users, the count is right between the calls, what is used is loaded, and a `needFree`
    is not lost. -/
theorem refSound_of_run (hrun : RefRun RefFits s) : RefSound s := hrun.inv.sound

/-! ## The first users -/

theorem RefRun.beside {P : RefState → RefPc → Bool → Prop} {s s' t : RefState}
    {next : Option RefPc} (rest : Multiset RefPc) (run : RefRun P s) (pc : RefPc) (ok : Bool)
    (hcalls : s.calls = pc ::ₘ rest) (hP : P s pc ok) (hop : s.operate ok pc = some (s', next))
    (ht : t = s'.proceed rest next) : RefRun P t := by
  subst ht
  exact .operate run hcalls hP hop

theorem run_loading {P : RefState → RefPc → Bool → Prop}
    (hread : P { calls := {.useLoad} } .useLoad true)
    (hcas : P { calls := {.useCas 0} } (.useCas 0) true) :
    RefRun P { m_ref := IN_LOAD, calls := {.load} } := by
  have hrun : RefRun P { calls := {.useCas 0} } :=
    .beside 0 (.use .start) .useLoad true rfl hread rfl rfl
  exact .beside 0 hrun (.useCas 0) true rfl hcas rfl rfl

theorem run_loaded {P : RefState → RefPc → Bool → Prop}
    (hread : P { calls := {.useLoad} } .useLoad true)
    (hcas : P { calls := {.useCas 0} } (.useCas 0) true)
    (hload : P { m_ref := IN_LOAD, calls := {.load} } .load true)
    (hdone : P { m_ref := IN_LOAD, loaded := true, calls := {.loadDone} } .loadDone true) :
    RefRun P { m_ref := 1, loaded := true, uses := 1 } := by
  have hrun : RefRun P { m_ref := IN_LOAD, loaded := true, calls := {.loadDone} } :=
    .beside 0 (run_loading hread hcas) .load true rfl hload rfl rfl
  exact .beside 0 hrun .loadDone true rfl hdone rfl rfl

/-- A reference has a user when two others come at once, and the second one has to try again.  Then
    `needFree` is called. -/
theorem refSound_threeUsers :
    RefSound { m_ref := NEED_FREE + 3, loaded := true, uses := 3, freeAsked := true } := by
  have hread (s : RefState) (ok : Bool) : RefFits s .useLoad ok := ⟨nofun, nofun, nofun⟩
  have hcas (s : RefState) (ok : Bool) (r : Nat) (hr : r < 4) : RefFits s (.useCas r) ok := by
    refine ⟨nofun, nofun, fun r' h => ?_⟩
    cases h
    omega
  have hfirst : RefRun RefFits { m_ref := 1, loaded := true, uses := 1 } :=
    run_loaded (hread _ _) (hcas _ _ 0 (by decide)) ⟨fun _ => rfl, nofun, nofun⟩
      ⟨nofun, nofun, nofun⟩
  have hcome : RefRun RefFits
      { m_ref := 1, loaded := true, uses := 1, calls := {.useLoad, .useLoad} } := hfirst.use.use
  have hone : RefRun RefFits
      { m_ref := 1, loaded := true, uses := 1, calls := {.useCas 1, .useLoad} } :=
    .beside {.useLoad} hcome .useLoad true rfl (hread _ _) rfl rfl
  have hboth : RefRun RefFits
      { m_ref := 1, loaded := true, uses := 1, calls := {.useCas 1, .useCas 1} } :=
    .beside {.useCas 1} hone .useLoad true (Multiset.pair_comm ..) (hread _ _) rfl rfl
  have hsecond : RefRun RefFits
      { m_ref := 2, loaded := true, uses := 2, calls := {.useCas 1} } :=
    .beside {.useCas 1} hboth (.useCas 1) true rfl (hcas _ _ 1 (by decide)) rfl rfl
  have hagain : RefRun RefFits { m_ref := 2, loaded := true, uses := 2, calls := {.useLoad} } :=
    .beside 0 hsecond (.useCas 1) true rfl (hcas _ _ 1 (by decide)) rfl rfl
  have hretry : RefRun RefFits { m_ref := 2, loaded := true, uses := 2, calls := {.useCas 2} } :=
    .beside 0 hagain .useLoad true rfl (hread _ _) rfl rfl
  have hthird : RefRun RefFits { m_ref := 3, loaded := true, uses := 3 } :=
    .beside 0 hretry (.useCas 2) true rfl (hcas _ _ 2 (by decide)) rfl rfl
  have hasked : RefRun RefFits
      { m_ref := NEED_FREE + 3, loaded := true, uses := 3, freeAsked := true } :=
    .beside 0 hthird.needFree .needFree true rfl ⟨nofun, fun _ => by decide, nofun⟩ rfl rfl
  exact refSound_of_run hasked

/-- The load fails, and the reference stays in it; or `needFree` is called while the last user
    closes the data, and is forgotten. -/
theorem not_refSound_after_failure :
    (∃ s, RefRun (fun _ _ _ => True) s ∧ s.calls = 0 ∧ s.deleted = false ∧ s.uses = 0 ∧
      s.m_ref = IN_LOAD ∧ ¬RefSound s) ∧
    ∃ s, RefRun (fun _ _ _ => True) s ∧ s.calls = 0 ∧ s.freeAsked = true ∧ s.deleted = false ∧
      s.m_ref = 0 ∧ ¬RefSound s := by
  constructor
  · have hfailed : RefRun (fun _ _ _ => True) { m_ref := IN_LOAD, calls := {.loadFailed} } :=
      .beside 0 (run_loading trivial trivial) .load false rfl trivial rfl rfl
    have hrun : RefRun (fun _ _ _ => True) { m_ref := IN_LOAD } :=
      .beside 0 hfailed .loadFailed true rfl trivial rfl rfl
    refine ⟨_, hrun, rfl, rfl, rfl, rfl, fun h => ?_⟩
    exact absurd (h.count rfl rfl) (by decide)
  · have hleaving : RefRun (fun _ _ _ => True)
        { m_ref := 1, loaded := true, calls := {.unuseLoad} } :=
      .unuse (run_loaded trivial trivial trivial trivial) rfl
    have hread : RefRun (fun _ _ _ => True)
        { m_ref := 1, loaded := true, calls := {.unuseCas 1} } :=
      .beside 0 hleaving .unuseLoad true rfl trivial rfl rfl
    have hclear : RefRun (fun _ _ _ => True)
        { m_ref := IN_CLEAR, loaded := true, calls := {.close 1} } :=
      .beside 0 hread (.unuseCas 1) true rfl trivial rfl rfl
    -- the other call sets its bit and returns
    have hasked : RefRun (fun _ _ _ => True)
        { m_ref := IN_CLEAR ||| NEED_FREE, loaded := true, calls := {.close 1}, freeAsked := true } :=
      .beside {.close 1} (.needFree hclear) .needFree true rfl trivial rfl rfl
    have hclosed : RefRun (fun _ _ _ => True)
        { m_ref := IN_CLEAR ||| NEED_FREE, calls := {.clearDone}, freeAsked := true } :=
      .beside 0 hasked (.close 1) true rfl trivial rfl rfl
    have hrun : RefRun (fun _ _ _ => True) { m_ref := 0, freeAsked := true } :=
      .beside 0 hclosed .clearDone true rfl trivial rfl rfl
    refine ⟨_, hrun, rfl, rfl, rfl, rfl, fun h => ?_⟩
    rcases h.asked rfl rfl with h | h
    · cases h
    · exact h rfl

end DBStream.Native.CLUSTER
