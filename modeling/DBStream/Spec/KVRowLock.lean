import DBStream.Spec.KVRowRuns

/-!
# The lock of a row

From its first write of a row until it commits or rolls back the row, a client should be the only
one that writes it.  A run keeps, beside the row, which client that is.  The lock is lost in two
ways: an update of the owner that names an unknown column unlocks the row, and so does a client
that commits or rolls back a row it has left in `m_rows` from an earlier transaction.  In runs
without such steps the client that has written the row owns it (`HeldRun.owned`), and the writes of
all others are answered with an error.
-/

namespace DBStream.Native.KVDB

open Function Meta

namespace World

def Succeeds (s : World) (uid : Nat) : Call → Prop
  | .write op => ∃ row, op.apply uid (s.client uid).m_txnId s.row = .ok (none, row)
  | _ => False

/-- A client commits or rolls back the row. -/
def EndsRow (s : World) (uid : Nat) : Call → Prop
  | .commit => (s.client uid).m_start = false ∧ (s.client uid).hasRow = true
  | .rollback => (s.client uid).m_start = false ∧ (s.client uid).hasRow = true
  | _ => False

/-- A step that does not unlock the row of another client, or of a client that has still to commit
    or roll it back. -/
def KeepsLock (s : World) (uid : Nat) (call : Call) : Prop :=
  uid ≠ 0 ∧ (s.EndsRow uid call → s.row.Lockable uid) ∧
    ∀ op, call = .write op → op.Unlocks s.row uid → s.row.owner ≠ uid

/-- The worlds that runs lead to, each with the client that has written the row and has neither
    committed nor rolled it back.  The steps satisfy `P`. -/
inductive HeldRun (P : World → Nat → Call → Prop) : World → Option Nat → Prop where
  | start : HeldRun P {} none
  | wrote {s s' : World} {held : Option Nat} (uid : Nat) (call : Call) (run : HeldRun P s held)
      (cond : P s uid call) (succeeds : s.Succeeds uid call) (step : s.step uid call = .ok s') :
      HeldRun P s' (held.or (some uid))
  | ended {s s' : World} (uid : Nat) (call : Call) (run : HeldRun P s (some uid))
      (cond : P s uid call) (ends : s.EndsRow uid call) (step : s.step uid call = .ok s') :
      HeldRun P s' none
  | other {s s' : World} {held : Option Nat} (uid : Nat) (call : Call) (run : HeldRun P s held)
      (cond : P s uid call) (fails : ¬s.Succeeds uid call)
      (goes : held = some uid → ¬s.EndsRow uid call) (step : s.step uid call = .ok s') :
      HeldRun P s' held

/-- Every write of a client but the one that holds the row is answered with an error, and leaves the
    row as it is. -/
def Excludes (s : World) (held : Option Nat) : Prop :=
  ∀ holder, held = some holder → ∀ uid, uid ≠ holder → ∀ op : Op, ∃ e,
    op.apply uid (s.client uid).m_txnId s.row = .ok (some e, s.row)

end World

/-! ## Writes and the lock -/

variable {r r' : Row} {uid tid : Nat} {op : Op} {status : Status}

theorem Wrote.owner (h : Wrote r uid tid op none r') : r.Lockable uid ∧ r'.owner = uid := by
  cases h with
  | first _ hlock => exact ⟨hlock, rfl⟩
  | behind _ _ _ hlock => exact ⟨hlock, rfl⟩
  | changed hreach _ _ => exact ⟨hreach.lockable, rfl⟩

theorem Wrote.tailLive (h : Wrote r uid tid op none r') : r'.TailLive := by
  cases h with
  | first _ _ =>
    rintro a ⟨⟩
    simp [Cells.get_put_self]
  | @behind _ _ t _ ht _ _ _ =>
    intro a ha
    cases ht.symm.trans ha
    simp [Row.get_appended_tail]
  | @changed new _ t _ _ _ _ _ =>
    rintro a ⟨⟩
    by_cases hnew : new = t
    · simp [hnew, Row.get_appended_tail]
    · simp [Row.get_appended_new hnew]

/-- A write that fails leaves the row, unless it takes the lock of its own client away. -/
theorem Wrote.row_of_failed (h : Wrote r uid tid op status r') (hfails : status ≠ none)
    (hkeeps : op.Unlocks r uid → r.owner ≠ uid) : r' = r := by
  cases h with
  | refused => rfl
  | unlocked hreach hunknown =>
    have hzero := hreach.lockable.resolve_right (hkeeps ⟨_, _, hreach, hunknown⟩)
    rw [← hzero]
  | first _ _ => exact absurd rfl hfails
  | behind _ _ _ _ => exact absurd rfl hfails
  | changed _ _ _ => exact absurd rfl hfails

/-- A write of a client that cannot lock the row is refused. -/
theorem apply_of_not_lockable (hlive : r.TailLive) (hlock : ¬r.Lockable uid) (op : Op) :
    ∃ e, op.apply uid tid r = .ok (some e, r) := by
  have hsafe : op.Safe r uid := by
    cases op with
    | insert new data => trivial
    | update new change => exact fun t v hreach => absurd hreach.lockable hlock
    | drop new => exact fun t v hreach => hlock hreach.lockable
  obtain ⟨status, r', happly, hwrote⟩ := @apply_spec r uid tid op hlive hsafe
  cases hwrote with
  | refused => exact ⟨_, happly⟩
  | unlocked hreach _ => exact absurd hreach.lockable hlock
  | first _ hlock' => exact absurd hlock' hlock
  | behind _ _ _ hlock' => exact absurd hlock' hlock
  | changed hreach _ _ => exact absurd hreach.lockable hlock

namespace World

variable {s s' : World} {call : Call} {held : Option Nat}

theorem Succeeds.wrote (h : s.Succeeds uid call) (hstep : s.step uid call = .ok s') :
    s.row.Lockable uid ∧ s'.row.owner = uid ∧ s'.row.TailLive := by
  cases call with
  | write op =>
    obtain ⟨row, happly⟩ := h
    have hwrote := (wrote_of_apply happly).2
    unfold World.step at hstep
    dsimp only at hstep
    rw [happly] at hstep
    cases hstep
    exact ⟨hwrote.owner.1, hwrote.owner.2, hwrote.tailLive⟩
  | commit => exact h.elim
  | rollback => exact h.elim
  | select => exact h.elim
  | startTrans tid => exact h.elim

/-- A step that is no successful write and keeps the lock leaves the row, unless it ends the row
    for the client. -/
theorem row_of_step (hkeeps : s.KeepsLock uid call) (hfails : ¬s.Succeeds uid call)
    (hstep : s.step uid call = .ok s') : s'.row = s.row ∨ s.EndsRow uid call := by
  obtain ⟨-, -, hunlocks⟩ := hkeeps
  cases call with
  | write op =>
    obtain ⟨⟨status, row⟩, happly, hstep⟩ := Exec.of_bind hstep
    cases hstep
    refine Or.inl ((wrote_of_apply happly).2.row_of_failed ?_ (hunlocks op rfl))
    rintro rfl
    exact hfails ⟨row, happly⟩
  | commit =>
    unfold World.step Client.commit at hstep
    cases hstart : (s.client uid).m_start with
    | true =>
      simp only [hstart, if_true] at hstep
      cases hstep
      exact Or.inl rfl
    | false =>
      cases hrow : (s.client uid).hasRow with
      | false =>
        simp only [hstart, hrow, Bool.false_eq_true, if_false] at hstep
        cases hstep
        exact Or.inl rfl
      | true => exact Or.inr ⟨hstart, hrow⟩
  | rollback =>
    unfold World.step Client.rollback at hstep
    cases hstart : (s.client uid).m_start with
    | true =>
      simp only [hstart, if_true] at hstep
      cases hstep
      exact Or.inl rfl
    | false =>
      cases hrow : (s.client uid).hasRow with
      | false =>
        simp only [hstart, hrow, Bool.false_eq_true, if_false] at hstep
        cases hstep
        exact Or.inl rfl
      | true => exact Or.inr ⟨hstart, hrow⟩
  | select =>
    obtain ⟨_, -, hstep⟩ := Exec.of_bind hstep
    cases hstep
    exact Or.inl rfl
  | startTrans tid =>
    cases hstep
    exact Or.inl rfl

/-! ## Runs -/

/-- The client that holds the row owns it, and the tail is there. -/
theorem HeldRun.owned (hrun : HeldRun KeepsLock s held) :
    ∀ holder, held = some holder → s.row.owner = holder ∧ holder ≠ 0 ∧ s.row.TailLive := by
  induction hrun with
  | start =>
    intro holder h
    cases h
  | @wrote s s' held uid call run cond succeeds step ih =>
    intro holder hholder
    obtain ⟨hlock, howner, hlive⟩ := succeeds.wrote step
    cases held with
    | none =>
      cases hholder
      exact ⟨howner, cond.1, hlive⟩
    | some holder' =>
      -- only the holder can lock the row
      cases hholder
      obtain ⟨hown, hne, -⟩ := ih holder rfl
      rw [Row.Lockable, hown] at hlock
      exact ⟨howner.trans (hlock.resolve_left hne).symm, hne, hlive⟩
  | ended =>
    intro holder h
    cases h
  | @other s s' held uid call run cond fails goes step ih =>
    intro holder hholder
    obtain ⟨hown, hne, hlive⟩ := ih holder hholder
    rcases row_of_step cond fails step with hrow | hends
    · rw [hrow]
      exact ⟨hown, hne, hlive⟩
    · -- the client ends a row that it has not written
      have hlock := cond.2.1 hends
      rw [Row.Lockable, hown] at hlock
      have hsame := hlock.resolve_left hne
      exact absurd hends (goes (hholder.trans (congrArg some hsame)))

/-- In every run whose steps keep the lock, every write of another client than the one that holds
    the row is answered with an error. -/
theorem excludes_of_run (hrun : HeldRun KeepsLock s held) : s.Excludes held := by
  intro holder hholder uid hne op
  obtain ⟨hown, hne₀, hlive⟩ := hrun.owned holder hholder
  refine apply_of_not_lockable hlive ?_ op
  rw [Row.Lockable, hown]
  rintro (h | h)
  · exact hne₀ h
  · exact hne h.symm

end World

/-! ## Clients of a row -/

private theorem keepsLock_firstInsert : World.KeepsLock {} 1 firstInsert := by
  refine ⟨by decide, False.elim, ?_⟩
  rintro op ⟨⟩ h
  exact h.elim

theorem heldRun_firstInsert {P : World → Nat → Call → Prop} (hP : P {} 1 firstInsert) :
    ∃ s, World.step {} 1 firstInsert = .ok s ∧ World.HeldRun P s (some 1) :=
  ⟨_, rfl, .wrote 1 firstInsert .start hP ⟨_, rfl⟩ rfl⟩

/-- The second client writes the row that the first one has committed, and shuts it out. -/
theorem excludes_after_firstInsert :
    ∃ s s' s'', World.step {} 1 firstInsert = .ok s ∧ s.step 1 .commit = .ok s' ∧
      s'.step 2 longerValue = .ok s'' ∧ s''.Excludes (some 2) := by
  obtain ⟨s, hs, hrun⟩ := heldRun_firstInsert keepsLock_firstInsert
  cases hs
  have hcommit : World.HeldRun World.KeepsLock _ none :=
    .ended 1 .commit hrun ⟨by decide, fun _ => .inr rfl, nofun⟩ ⟨rfl, rfl⟩ rfl
  refine ⟨_, _, _, rfl, rfl, rfl, ?_⟩
  refine World.excludes_of_run (.wrote 2 longerValue hcommit ⟨by decide, False.elim, ?_⟩ ⟨_, rfl⟩ rfl)
  rintro op ⟨⟩ -
  decide

def unknownColumn : Call := .write (.update 8 [⟨2, none⟩])

/-- The holder names a column that there is not, and another client writes the row. -/
theorem unlocked_by_update :
    ∃ s s', World.step {} 1 firstInsert = .ok s ∧ s.step 1 unknownColumn = .ok s' ∧
      World.HeldRun (fun _ _ _ => True) s' (some 1) ∧ ¬s'.Excludes (some 1) := by
  obtain ⟨s, hs, hrun⟩ := heldRun_firstInsert (P := fun _ _ _ => True) trivial
  cases hs
  refine ⟨_, _, rfl, rfl, .other 1 unknownColumn hrun trivial ?_ ?_ rfl, ?_⟩
  · intro ⟨row, h⟩
    cases h
  · intro _ h
    exact h
  · intro h
    obtain ⟨e, he⟩ := h 1 rfl 2 (by decide) (.update 9 [⟨0, some [6, 7]⟩])
    cases he

end DBStream.Native.KVDB
