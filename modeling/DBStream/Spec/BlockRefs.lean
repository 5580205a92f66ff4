import DBStream.Native.Ref

/-!
# The life of a block

Users take a block with `use` and give it back with `unuse`; its owner gives it back
once more, without a `use`, when it wants the block deleted.  A run is any interleaving
of these calls, with the `delete this` of an `unuse` as a step of its own.

The counter starts at `0`, and `unuse` deletes when the value *before* its subtraction
is negative.  The value is the number of uses outstanding, less one after the release
and plus one after a refused `use` (`Inv.count`), so no `unuse` ever sees a negative
value: a block whose users keep to the pairs is never deleted (`run_not_sound`).
-/

namespace DBStream.Native.BlockLife

/-- A block while it is used: the counter, the successful uses outstanding, whether the owner
    has released the block, the uses that were refused, the calls of `unuse` that are about to
    delete it, and the deletions made. -/
structure State where
  m_ref : Ref := {}
  users : Nat := 0
  released : Bool := false
  refused : Nat := 0
  deleting : Nat := 0
  deleted : Nat := 0
  deriving DecidableEq

/-- What can happen next. -/
inductive Act where
  /-- A user calls `use`. -/
  | use
  /-- A user whose `use` succeeded calls `unuse`. -/
  | unuse
  /-- The owner calls its `unuse`. -/
  | release
  /-- An `unuse` that has seen a negative value executes `delete this`. -/
  | delete
  deriving DecidableEq

/-- The effect of an `unuse` on the counter and on the calls about to delete. -/
def State.drop (s : State) : State :=
  { s with
    m_ref := (blockUnuse s.m_ref).2
    deleting := s.deleting + (blockUnuse s.m_ref).1.toNat }

/-- One atomic operation; `none` if nobody is there to make it. -/
def step (s : State) : Act → Option State
  | .use =>
    let s' := { s with m_ref := (blockUse s.m_ref).2 }
    if (blockUse s.m_ref).1 then some { s' with users := s.users + 1 }
    else some { s' with refused := s.refused + 1 }
  | .unuse => if 0 < s.users then some { s.drop with users := s.users - 1 } else none
  | .release => if s.released then none else some { s.drop with released := true }
  | .delete =>
    if 0 < s.deleting then
      some { s with deleting := s.deleting - 1, deleted := s.deleted + 1 }
    else none

/-- `Run es s`: the operations `es` on a fresh block, each with the state it was made in, lead
    to `s`. -/
inductive Run : List (State × Act) → State → Prop
  | start : Run [] {}
  | step {es : List (State × Act)} {s s' : State} {a : Act} (h : Run es s)
      (hs : step s a = some s') : Run (es ++ [(s, a)]) s'

/-- The release has been made, every user has given the block back, and nobody is about to
    delete it. -/
structure State.Complete (s : State) : Prop where
  released : s.released = true
  users : s.users = 0
  deleting : s.deleting = 0

/-- The owner has released the block and nobody uses it: the count has its retired value. -/
def State.Retired (s : State) : Prop := s.released = true ∧ s.m_ref.m_ref = -1

/-- What reference counting is for. -/
structure Sound (es : List (State × Act)) (s : State) : Prop where
  /-- Once everybody is done, the block has been deleted, and only once. -/
  once : s.Complete → s.deleted = 1
  /-- It is not deleted under a user. -/
  unused : ∀ e ∈ es, e.2 = .delete → e.1.users = 0
  /-- After the block is retired, `use` is refused. -/
  closed : ∀ done e rest, es = done ++ e :: rest → e.2 = .use →
    (∃ e' ∈ done ++ [e], e'.1.Retired) → (blockUse e.1.m_ref).1 = false

variable {es : List (State × Act)} {s s' : State}

/-- The counter and the calls about to delete, as one operation after the other leaves them. -/
structure Inv (s : State) : Prop where
  count : s.m_ref.m_ref = s.users - s.released.toNat + s.refused
  refused : s.refused ≤ 1
  deleting : s.deleting = 0
  deleted : s.deleted = 0

/-- An `unuse` never sees a negative value: a user's own `use` is still counted, and so is the
    refused one that a second release would need. -/
theorem Inv.drop (hi : Inv s) (h : 0 < s.users ∨ s.released = false) :
    s.drop.m_ref.m_ref = s.m_ref.m_ref - 1 ∧ s.drop.deleting = 0 := by
  have hcount := hi.count
  have hseen : ¬ s.m_ref.m_ref < 0 := by
    cases h with
    | inl hu =>
      have := Bool.toNat_le s.released
      omega
    | inr hr =>
      rw [hr] at hcount
      simp only [Bool.toNat_false] at hcount
      omega
  simp [State.drop, blockUnuse, Ref.unuse, hseen, hi.deleting]

/-- Every step of a user or of the manager keeps the invariant. -/
theorem step_inv {a : Act} (hi : Inv s) (h : step s a = some s') : Inv s' := by
  have hcount := hi.count
  cases a with
  | use =>
    simp only [step] at h
    split at h
    · cases h
      refine ⟨?_, hi.refused, hi.deleting, hi.deleted⟩
      simp only [blockUse, Ref.use]
      omega
    · rename_i hneg
      cases h
      rw [blockUse, decide_eq_true_eq, Ref.use] at hneg
      have := Bool.toNat_le s.released
      refine ⟨?_, ?_, hi.deleting, hi.deleted⟩
      · simp only [blockUse, Ref.use]
        omega
      · simp only
        omega
  | unuse =>
    simp only [step] at h
    split at h
    · rename_i hu
      cases h
      have hdrop := hi.drop (.inl hu)
      refine ⟨?_, hi.refused, hdrop.2, hi.deleted⟩
      have hm : s.drop.m_ref.m_ref = s.m_ref.m_ref - 1 := hdrop.1
      simp only [hm]
      change _ = ((s.users - 1 : Nat) : Int) - s.released.toNat + s.refused
      omega
    · cases h
  | release =>
    simp only [step] at h
    split at h
    · cases h
    · rename_i hr
      simp only [Bool.not_eq_true] at hr
      cases h
      have hdrop := hi.drop (.inr hr)
      refine ⟨?_, hi.refused, hdrop.2, hi.deleted⟩
      rw [hr] at hcount
      simp only [Bool.toNat_false] at hcount
      have hm : s.drop.m_ref.m_ref = s.m_ref.m_ref - 1 := hdrop.1
      simp only [hm, Bool.toNat_true]
      change _ = (s.users : Int) - (1 : Nat) + s.refused
      omega
  | delete =>
    simp only [step, hi.deleting, Nat.lt_irrefl] at h
    cases h

private theorem run_inv (h : Run es s) : Inv s := by
  induction h with
  | start => exact ⟨rfl, by decide, rfl, rfl⟩
  | step _ hs ih => exact step_inv ih hs

/-- No interleaving of users and owner deletes the block, so none that is over is sound. -/
theorem run_not_sound (h : Run es s) (hc : s.Complete) : s.deleted = 0 ∧ ¬ Sound es s := by
  have hdel := (run_inv h).deleted
  refine ⟨hdel, ?_⟩
  intro hsound
  have honce := hsound.once hc
  omega

/-- The states of a block with one user, released while it is used, and then asked for twice more
    by a late user. -/
def lateRun : List (State × Act) :=
  [({}, .use),
   ({ m_ref := ⟨1⟩, users := 1 }, .release),
   ({ m_ref := ⟨0⟩, users := 1, released := true }, .unuse),
   ({ m_ref := ⟨-1⟩, released := true }, .use),
   ({ m_ref := ⟨0⟩, released := true, refused := 1 }, .use),
   ({ m_ref := ⟨1⟩, users := 1, released := true, refused := 1 }, .unuse)]

theorem run_lateRun : Run lateRun { m_ref := ⟨0⟩, released := true, refused := 1 } :=
  .step (.step (.step (.step (.step (.step .start rfl) rfl) rfl) rfl) rfl) rfl

theorem run_not_sound_lateRun : ¬ Sound lateRun { m_ref := ⟨0⟩, released := true, refused := 1 } :=
  (run_not_sound run_lateRun ⟨rfl, rfl, rfl⟩).2

/-- The late user gets the block although it is retired, and at the end, with everybody done, the
    block has not been deleted. -/
theorem lateRun_unsound :
    ∃ s, Run lateRun s ∧ s.Complete ∧ s.deleted = 0 ∧ ¬ Sound lateRun s ∧
      ∃ done e rest, lateRun = done ++ e :: rest ∧ e.2 = .use ∧
        (∃ e' ∈ done ++ [e], e'.1.Retired) ∧ (blockUse e.1.m_ref).1 = true := by
  refine ⟨_, run_lateRun, ⟨rfl, rfl, rfl⟩, rfl, ?_, ?_⟩
  · intro h
    exact nomatch h.once ⟨rfl, rfl, rfl⟩
  · refine ⟨lateRun.take 4, ({ m_ref := ⟨0⟩, released := true, refused := 1 }, .use),
      lateRun.drop 5, rfl, rfl, ?_, rfl⟩
    exact ⟨({ m_ref := ⟨-1⟩, released := true }, .use), by simp [lateRun], rfl, rfl⟩

end DBStream.Native.BlockLife
