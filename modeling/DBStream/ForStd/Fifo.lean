import Mathlib.Data.List.Infix

/-!
# First in, first out

A component with a content takes in and gives out items.  What was in it and what went in is what
came out and what is in it: if every step keeps this law, so does a run.
-/

/-- What goes in and what comes out in a step from one content to another. -/
structure Fifo.Step {α : Type*} (content input output content' : List α) : Prop where
  conserved : content ++ input = output ++ content'

namespace Fifo

variable {α : Type*} {S : Type*}

/-- `Run R s₀ ins outs s`: steps of `R` lead from `s₀` to `s`, with all that went in and came out. -/
inductive Run (R : S → List α → List α → S → Prop) (s₀ : S) : List α → List α → S → Prop where
  | nil : Run R s₀ [] [] s₀
  | snoc {s s' : S} {ins outs i o : List α} (run : Run R s₀ ins outs s) (step : R s i o s') :
      Run R s₀ (ins ++ i) (outs ++ o) s'

variable {R : S → List α → List α → S → Prop} {s₀ s : S}
  {l₀ l l' ins outs i o : List α}

theorem Step.refl : Step l [] [] l := ⟨by simp⟩

theorem Step.trans {l'' : List α} (h : Step l ins outs l') (h' : Step l' i o l'') :
    Step l (ins ++ i) (outs ++ o) l'' := by
  constructor
  calc l ++ (ins ++ i)
    _ = (l ++ ins) ++ i := (List.append_assoc ..).symm
    _ = outs ++ (l' ++ i) := by rw [h.conserved, List.append_assoc]
    _ = (outs ++ o) ++ l'' := by rw [h'.conserved, List.append_assoc]

theorem Step.isPrefix (h : Step [] ins outs l) : outs <+: ins := ⟨l, h.conserved.symm⟩

theorem Run.conserved {Rep : S → List α → Prop} (hrun : Run R s₀ ins outs s) (h₀ : Rep s₀ l₀)
    (hstep : ∀ s l i o s', Rep s l → R s i o s' → ∃ l', Rep s' l' ∧ Step l i o l') :
    ∃ l, Rep s l ∧ Step l₀ ins outs l := by
  induction hrun with
  | nil => exact ⟨l₀, h₀, .refl⟩
  | snoc _ step ih =>
    obtain ⟨l, hrep, hlaw⟩ := ih
    obtain ⟨l', hrep', hlaw'⟩ := hstep _ _ _ _ _ hrep step
    exact ⟨l', hrep', hlaw.trans hlaw'⟩

end Fifo
