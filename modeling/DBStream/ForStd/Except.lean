import Mathlib.Data.List.Basic

/-!
# Postconditions of computations that can fail

`Except.Post x Q E` says what holds after `x`: `Q` of the value it returns, `E` of the
error it throws.  The rules follow the structure of a program: `Post.bind` for a
sequence, `Post.foldlM` for a loop over a list with an invariant that may speak about
the part of the list already seen.
-/

namespace Except

variable {ε α β : Type}

/-- `Q` holds of the result of `x`, or `E` of its error. -/
def Post (x : Except ε α) (Q : α → Prop) (E : ε → Prop) : Prop :=
  match x with
  | .ok a => Q a
  | .error e => E e

theorem Post.mono {x : Except ε α} {Q Q' : α → Prop} {E E' : ε → Prop} (h : Post x Q E)
    (hQ : ∀ a, Q a → Q' a) (hE : ∀ e, E e → E' e) : Post x Q' E' := by
  cases x with
  | ok a => exact hQ a h
  | error e => exact hE e h

theorem Post.bind {x : Except ε α} {f : α → Except ε β} {Q : β → Prop} {E : ε → Prop}
    (h : Post x (fun a => Post (f a) Q E) E) : Post (x >>= f) Q E := by
  cases x with
  | ok a => exact h
  | error e => exact h

theorem Post.exists {x : Except ε α} {Q : α → Prop} (h : Post x Q fun _ => False) :
    ∃ a, x = .ok a ∧ Q a := by
  cases x with
  | ok a => exact ⟨a, rfl, h⟩
  | error e => exact h.elim

/-- The loop rule: an invariant of the elements seen so far is kept by the body at each element of
    the list. -/
theorem Post.foldlM {f : α → β → Except ε α} {l : List β} {a : α} {E : ε → Prop}
    (Inv : List β → α → Prop) (h₀ : Inv [] a)
    (hstep : ∀ done x rest a, l = done ++ x :: rest → Inv done a →
      Post (f a x) (Inv (done ++ [x])) E) :
    Post (l.foldlM f a) (Inv l) E := by
  -- generalised over the part already seen
  have hgo : ∀ rest done a, l = done ++ rest → Inv done a →
      Post (rest.foldlM f a) (Inv l) E := by
    intro rest
    induction rest with
    | nil =>
      intro done a hl hinv
      rw [List.append_nil] at hl
      rw [hl]
      exact hinv
    | cons x rest ih =>
      intro done a hl hinv
      apply Post.bind
      apply (hstep done x rest a hl hinv).mono
      · intro a' ha'
        apply ih (done ++ [x]) a' _ ha'
        rw [hl, List.append_assoc, List.singleton_append]
      · intro e he
        exact he
  exact hgo l [] a rfl h₀

end Except
