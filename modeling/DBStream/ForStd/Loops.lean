import Mathlib.Data.BitVec
import Mathlib.Data.List.Pairwise
import Mathlib.Order.Bounds.Basic

/-!
# Loops

Loops over arrays and lists, iterators that are run to their end, and functions that start again.
-/

/-!
## Loops over the first slots of an array

An array of `2 ^ w` slots is a function.  `sweep` visits the slots from 0 on: each is replaced, and
what the visits give is put in a row.
-/

section Sweep

variable {w : Nat} {ε α β : Type}

/-- Visit the slots with a number below `n`. -/
def sweep (visit : α → Except ε (α × List β)) :
    Nat → (BitVec w → α) → Except ε ((BitVec w → α) × List β)
  | 0, slots => .ok (slots, [])
  | n + 1, slots => do
    let (slots, values) ← sweep visit n slots
    let (a, more) ← visit (slots (BitVec.ofNat w n))
    return (Function.update slots (BitVec.ofNat w n) a, values ++ more)

theorem sweep_eq_ok {visit : α → Except ε (α × List β)} {slots new : BitVec w → α} {n : Nat}
    (hn : n ≤ 2 ^ w) (hvisit : ∀ k, k.toNat < n → ∃ more, visit (slots k) = .ok (new k, more)) :
    ∃ values, sweep visit n slots =
      .ok (fun k => if k.toNat < n then new k else slots k, values) := by
  induction n with
  | zero => exact ⟨[], by simp [sweep]⟩
  | succ n ih =>
    obtain ⟨values, hsweep⟩ := ih (by omega) fun k hk => hvisit k (by omega)
    have htoNat : (BitVec.ofNat w n).toNat = n := by
      rw [BitVec.toNat_ofNat, Nat.mod_eq_of_lt (by omega)]
    obtain ⟨more, hlast⟩ := hvisit (BitVec.ofNat w n) (by omega)
    refine ⟨values ++ more, ?_⟩
    simp only [sweep, hsweep, bind, Except.bind, htoNat, lt_irrefl, if_false, hlast, pure,
      Except.pure]
    congr 2
    funext k
    by_cases hk : k = BitVec.ofNat w n
    · subst hk
      rw [Function.update_self, if_pos (by omega)]
    · have hne : k.toNat ≠ n := fun h => hk (BitVec.eq_of_toNat_eq (h.trans htoNat.symm))
      have hiff : k.toNat < n + 1 ↔ k.toNat < n := by omega
      rw [Function.update_of_ne hk]
      simp only [hiff]

end Sweep

/-!
## The first match of a list

The first member of a list with a property, in the order of a key: what a search that passes over
parts of the list has to find.
-/

namespace List

variable {α : Type*} {β : Type*} [LinearOrder β] {key : α → β} {p : α → Bool} {l l₁ l₂ : List α}

/-- `r` is the member of `l` with `p` that has the least key, or none where there is none. -/
def FirstMatch (l : List α) (key : α → β) (p : α → Bool) : Option α → Prop
  | none => ∀ a ∈ l, p a = false
  | some a => a ∈ l ∧ p a = true ∧ ∀ a' ∈ l, key a' < key a → p a' = false

/-- Over increasing keys the loop gives the first match. -/
theorem firstMatch_iff (hl : l.Pairwise fun a a' => key a < key a') {r : Option α} :
    l.FirstMatch key p r ↔ r = l.find? p := by
  induction l generalizing r with
  | nil =>
    cases r with
    | none => simp [FirstMatch]
    | some a => simp [FirstMatch]
  | cons a l ih =>
    obtain ⟨hlt, hl⟩ := pairwise_cons.mp hl
    by_cases ha : p a = true
    · -- the head matches, and every other key is greater
      rw [find?_cons_of_pos ha]
      cases r with
      | none => simp [FirstMatch, ha]
      | some a' =>
        simp only [FirstMatch, Option.some.injEq, mem_cons, forall_eq_or_imp]
        constructor
        · intro ⟨hmem, _, hfirst, _⟩
          rcases hmem with rfl | hmem
          · rfl
          · rw [hfirst (hlt a' hmem)] at ha
            cases ha
        · intro heq
          subst heq
          refine ⟨Or.inl rfl, ha, fun h => absurd h (lt_irrefl _), ?_⟩
          intro b hb hba
          exact absurd (lt_trans (hlt b hb) hba) (lt_irrefl _)
    · rw [find?_cons_of_neg ha, ← ih hl]
      have hfalse : p a = false := Bool.eq_false_iff.mpr ha
      cases r with
      | none => simp [FirstMatch, hfalse]
      | some a' =>
        simp only [FirstMatch, mem_cons, forall_eq_or_imp, hfalse, implies_true, true_and]
        constructor
        · intro ⟨hmem, hp, hrest⟩
          rcases hmem with rfl | hmem
          · exact absurd hp ha
          · exact ⟨hmem, hp, hrest⟩
        · intro ⟨hmem, hp, hrest⟩
          exact ⟨Or.inr hmem, hp, hrest⟩

end List

/-!
## The first place with a property

What a search over the places of a text finds.
-/

section First

variable {p : ℕ → Prop} {n : ℕ}

theorem exists_isLeast (h : p n) : ∃ n, IsLeast {n | p n} n := by
  classical
  exact ⟨Nat.find ⟨n, h⟩, Nat.find_spec ⟨n, h⟩, fun _ hm => Nat.find_min' ⟨n, h⟩ hm⟩

theorem isLeast_of_zero (h : p 0) : IsLeast {n | p n} n ↔ n = 0 := by
  constructor
  · exact fun hn => Nat.le_zero.mp (hn.2 h)
  · rintro rfl
    exact ⟨h, fun m _ => Nat.zero_le m⟩

theorem isLeast_succ (h : ¬ p 0) :
    IsLeast {n | p n} n ↔ ∃ k, n = k + 1 ∧ IsLeast {k | p (k + 1)} k := by
  constructor
  · rintro ⟨hn, hmin⟩
    cases n with
    | zero => exact absurd hn h
    | succ k => exact ⟨k, rfl, hn, fun m hm => Nat.le_of_succ_le_succ (hmin hm)⟩
  · rintro ⟨k, rfl, hk, hmin⟩
    refine ⟨hk, fun m hm => ?_⟩
    cases m with
    | zero => exact absurd hm h
    | succ m => exact Nat.succ_le_succ (hmin hm)

end First

/-!
## Iterators that are run to their end

`pull` gives the next element and the iterator behind it, or says that there is none.
`Yields pull it l` are the elements of a whole run; `run` computes them, and since there is no
bound on how long an iterator goes on, it has fuel.
-/

namespace Drain

variable {ε ι α : Type}

/-- The elements up to the end. -/
def run (endless : ε) (pull : ι → Except ε (Option (α × ι))) : Nat → ι → Except ε (List α)
  | 0, _ => .error endless
  | fuel + 1, it => do
    match ← pull it with
    | none => return []
    | some (a, it) =>
      let rest ← run endless pull fuel it
      return a :: rest

/-- `pull` gives the elements of `l` one after the other and stops then. -/
inductive Yields (pull : ι → Except ε (Option (α × ι))) : ι → List α → Prop
  | nil {it : ι} (h : pull it = .ok none) : Yields pull it []
  | cons {it it' : ι} {a : α} {l : List α} (h : pull it = .ok (some (a, it')))
      (rest : Yields pull it' l) : Yields pull it (a :: l)

variable {pull : ι → Except ε (Option (α × ι))} {it : ι} {l : List α} {endless : ε} {fuel : Nat}

theorem Yields.of_step {R : ι → List α → Prop} (hnil : ∀ it, R it [] → pull it = .ok none)
    (hcons : ∀ it a l, R it (a :: l) → ∃ it', pull it = .ok (some (a, it')) ∧ R it' l)
    (h : R it l) : Yields pull it l := by
  induction l generalizing it with
  | nil => exact .nil (hnil it h)
  | cons a l ih =>
    obtain ⟨it', hpull, hrest⟩ := hcons it a l h
    exact .cons hpull (ih hrest)

theorem run_of_yields (endless : ε) (h : Yields pull it l) (hfuel : l.length < fuel) :
    run endless pull fuel it = .ok l := by
  induction h generalizing fuel with
  | nil h =>
    cases fuel with
    | zero => omega
    | succ fuel =>
      unfold run
      rw [h]
      rfl
  | cons h rest ih =>
    cases fuel with
    | zero => omega
    | succ fuel =>
      rw [List.length_cons] at hfuel
      unfold run
      rw [h]
      show (run endless pull fuel _ >>= fun rest => _) = _
      rw [ih (by omega)]
      rfl

theorem run_of_error {e : ε} (h : pull it = .error e) (fuel : Nat) (hfuel : 0 < fuel) :
    run endless pull fuel it = .error e := by
  cases fuel with
  | zero => omega
  | succ fuel =>
    unfold run
    rw [h]
    rfl

end Drain

/-!
## Functions that call themselves again

A function that does a step and then either returns or starts again from the state it has reached.
There is no bound on how often it starts again, so a run has fuel; it may also get stuck.
-/

namespace Retry

variable {S R : Type*}

/-- What the function returns if it is entered at most so often. -/
def run (step : S → Option (R ⊕ S)) : Nat → S → Option R
  | 0, _ => none
  | n + 1, s =>
    match step s with
    | none => none
    | some (.inl r) => some r
    | some (.inr s') => run step n s'

/-- The function returns. -/
def Ends (step : S → Option (R ⊕ S)) (s : S) : Prop := ∃ n, (run step n s).isSome

variable {step : S → Option (R ⊕ S)} {s s' : S} {r : R} {n : Nat}

theorem run_succ : run step (n + 1) s =
    match step s with
    | none => none
    | some (.inl r) => some r
    | some (.inr s') => run step n s' := rfl

theorem not_ends_of_stuck (h : step s = none) : ¬ Ends step s := by
  rintro ⟨n, hn⟩
  cases n with
  | zero => cases hn
  | succ n =>
    rw [run_succ, h] at hn
    cases hn

theorem ends_of_return (h : step s = some (.inl r)) : Ends step s := ⟨1, by rw [run_succ, h]; rfl⟩

theorem ends_iff_of_retry (h : step s = some (.inr s')) : Ends step s ↔ Ends step s' := by
  constructor
  · rintro ⟨n, hn⟩
    cases n with
    | zero => cases hn
    | succ n =>
      rw [run_succ, h] at hn
      exact ⟨n, hn⟩
  · rintro ⟨n, hn⟩
    refine ⟨n + 1, ?_⟩
    rw [run_succ, h]
    exact hn

theorem run_of_return {r' : R} (h : step s = some (.inl r)) (hrun : run step n s = some r') :
    r' = r := by
  cases n with
  | zero => cases hrun
  | succ n =>
    rw [run_succ, h] at hrun
    exact (Option.some.inj hrun).symm

theorem run_of_retry (h : step s = some (.inr s')) (hrun : run step n s = some r) :
    ∃ n', run step n' s' = some r := by
  cases n with
  | zero => cases hrun
  | succ n =>
    rw [run_succ, h] at hrun
    exact ⟨n, hrun⟩

theorem not_ends (Inv : S → Prop)
    (hstep : ∀ s, Inv s → step s = none ∨ ∃ s', step s = some (.inr s') ∧ Inv s') (h : Inv s) :
    ¬ Ends step s := by
  rintro ⟨n, hn⟩
  induction n generalizing s with
  | zero => cases hn
  | succ n ih =>
    rw [run_succ] at hn
    rcases hstep s h with hstuck | ⟨s', hretry, hinv⟩
    · rw [hstuck] at hn
      cases hn
    · rw [hretry] at hn
      exact ih hinv hn

theorem run_of_step (Inv : S → Prop) (Post : R → Prop)
    (hreturn : ∀ s r, Inv s → step s = some (.inl r) → Post r)
    (hretry : ∀ s s', Inv s → step s = some (.inr s') → Inv s') (h : Inv s)
    (hrun : run step n s = some r) : Post r := by
  induction n generalizing s with
  | zero => cases hrun
  | succ n ih =>
    rw [run_succ] at hrun
    split at hrun
    · cases hrun
    · next r' hstep =>
      cases hrun
      exact hreturn s _ h hstep
    · next s' hstep => exact ih (hretry s s' h hstep) hrun

end Retry
