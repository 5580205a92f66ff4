import Mathlib.Data.Option.Defs

/-!
# Computations that can fail
-/

/-!
## Related computations that can fail

`Option.Rel r x y` says that `x` and `y` both fail or both return, with related values.  The rules
follow two computations step by step.
-/

namespace Option

variable {α β γ δ : Type} {r : α → β → Prop} {s : γ → δ → Prop}

theorem Rel.bind {x : Option α} {y : Option β} {f : α → Option γ} {g : β → Option δ}
    (h : Rel r x y) (hfg : ∀ a b, r a b → Rel s (f a) (g b)) : Rel s (x >>= f) (y >>= g) := by
  cases h with
  | some hab => exact hfg _ _ hab
  | none => exact .none

theorem Rel.bind_same (x : Option α) {f : α → Option γ} {g : α → Option δ}
    (hfg : ∀ a, Rel s (f a) (g a)) : Rel s (x >>= f) (x >>= g) := by
  cases x with
  | some a => exact hfg a
  | none => exact .none

theorem Rel.exists_right {a : α} {y : Option β} (h : Rel r (.some a) y) :
    ∃ b, y = .some b ∧ r a b := by
  cases h with
  | some hab => exact ⟨_, rfl, hab⟩

end Option

/-!
## Computations on a state that can fail

`StateT.Keeps I m Q` says that `m`, when it returns, keeps the invariant `I` of the state and gives a
value with `Q`.  The rules follow a computation step by step.
-/

namespace StateT

variable {σ α β : Type}

/-- What `m` returns satisfies `Q`, and the state it leaves satisfies `I` if the one it found did. -/
def Keeps (I : σ → Prop) (m : StateT σ Option α) (Q : α → Prop) : Prop :=
  ∀ s x s', m s = some (x, s') → I s → I s' ∧ Q x

variable {I : σ → Prop} {Q R : α → Prop}

theorem Keeps.pure {x : α} (h : Q x) : Keeps I (Pure.pure x) Q := by
  intro s y s' hrun hs
  obtain ⟨rfl, rfl⟩ := Prod.mk.inj (Option.some.inj hrun)
  exact ⟨hs, h⟩

theorem Keeps.bind {S : β → Prop} {m : StateT σ Option α} {f : α → StateT σ Option β}
    (hm : Keeps I m Q) (hf : ∀ x, Q x → Keeps I (f x) S) : Keeps I (m >>= f) S := by
  intro s y s'' hrun hs
  simp only [Bind.bind, StateT.bind, Option.bind_eq_some_iff] at hrun
  obtain ⟨⟨x, s'⟩, hx, hy⟩ := hrun
  obtain ⟨hs', hq⟩ := hm s x s' hx hs
  exact hf x hq s' y s'' hy hs'

theorem Keeps.failure : Keeps I (Alternative.failure : StateT σ Option α) Q := by
  intro s x s' hrun
  simp [Alternative.failure, StateT.failure] at hrun

theorem Keeps.lift {o : Option α} (h : ∀ x, o = some x → Q x) :
    Keeps I (liftM o : StateT σ Option α) Q := by
  intro s x s' hrun hs
  cases o with
  | none => simp [liftM, monadLift, MonadLift.monadLift, StateT.lift] at hrun
  | some y =>
    simp only [liftM, monadLift, MonadLift.monadLift, StateT.lift, Option.bind_eq_bind,
      Option.bind_some, Option.pure_def, Option.some.injEq, Prod.mk.injEq] at hrun
    obtain ⟨rfl, rfl⟩ := hrun
    exact ⟨hs, h y rfl⟩

theorem Keeps.get : Keeps I (MonadState.get : StateT σ Option σ) I := by
  intro s x s' hrun hs
  obtain ⟨rfl, rfl⟩ := hrun
  exact ⟨hs, hs⟩

theorem Keeps.set {s₀ : σ} (h : I s₀) : Keeps I (MonadState.set s₀ : StateT σ Option PUnit)
    fun _ => True := by
  intro s x s' hrun hs
  obtain rfl : s₀ = s' := (Prod.mk.inj (Option.some.inj hrun)).2
  exact ⟨h, trivial⟩

theorem Keeps.modify {f : σ → σ} (h : ∀ s, I s → I (f s)) :
    Keeps I (modify f : StateT σ Option PUnit) fun _ => True := by
  intro s x s' hrun hs
  obtain rfl : f s = s' := (Prod.mk.inj (Option.some.inj hrun)).2
  exact ⟨h s hs, trivial⟩

end StateT
