import DBStream.Spec.KVRowRuns
import DBStream.Spec.KVRowTwin

/-!
# What a rollback undoes

A client works on a row that was committed last, and rolls back.  The row is as before only if none
of its operations was accepted: `rollback` frees what is behind `current` and does not write `tail`,
which each accepted operation has moved, nor the other two pointers, which the first insert of a row
has set.  `Undoable` says when it is as before.
-/

namespace DBStream.Native.KVDB

open Cells

/-! ## Committed rows -/

/-- The rows that any clients lead to with operations and commits in any order. -/
inductive Written : Row → Prop where
  | start : Written {}
  | write {r r' : Row} {uid tid status} {op : Op} : Written r → r.mem.get op.new = none → op.Small r →
      op.apply uid tid r = .ok (status, r') → Written r'
  | commit {r : Row} : Written r → Written r.commit

/-- The last thing that was done with a row is a commit. -/
def Settled (r : Row) : Prop := ∃ r₀ : Row, Written r₀ ∧ r = r₀.commit

/-! ## A client and its rollback -/

/-- Run the operations of a client. -/
def runOps (uid : Nat) : List Op → Client → Row → Exec (Client × Row)
  | [], c, r => .ok (c, r)
  | op :: ops, c, r => do
    let (status, r) ← op.apply uid c.m_txnId r
    runOps uid ops (c.newOperator status) r

/-- Each operation gets memory that is not in use, and its record is small. -/
def Allocated (uid : Nat) : List Op → Client → Row → Prop
  | [], _, _ => True
  | op :: ops, c, r => r.mem.get op.new = none ∧ op.Small r ∧ ∀ status r',
      op.apply uid c.m_txnId r = .ok (status, r') → Allocated uid ops (c.newOperator status) r'

/-- A row has the pointers and the reachable versions it had. -/
structure Restored (r r' : Row) : Prop where
  current : r'.current = r.current
  head : r'.head = r.head
  tail : r'.tail = r.tail
  versions : ∃ l, Chain r.mem r.head l ∧ Chain r'.mem r'.head l ∧ ∀ a ∈ l, r'.mem.get a = r.mem.get a

/-- After the operations of a client and its rollback the row is as before, also to all later
    calls. -/
def Undone (uid : Nat) (c : Client) (ops : List Op) (r : Row) : Prop :=
  ∃ c' r' status c'' r'', runOps uid ops c r = .ok (c', r') ∧
    c'.rollback r' = .ok (status, c'', r'') ∧ Restored r r'' ∧
    ∀ calls, Row.SameAnswers calls r r''

/-- A row that is not locked answers an operation with an error. -/
def Op.Idle (r : Row) (uid : Nat) (op : Op) : Prop := op.Refused r ∨ op.Unlocks r uid

/-- When a rollback undoes.  Without an operation that was accepted there is nothing to undo, but the
    row may be in `m_rows` from the transaction before, and then `current` is read. -/
def Undoable (uid : Nat) (c : Client) (ops : List Op) (r : Row) : Prop :=
  (∀ op ∈ ops, op.Idle r uid) ∧ (c.m_start = true ∨ c.hasRow = false ∨ r.current ≠ none)

/-! ## What operations and commits keep -/

variable {r r' r₁ : Row} {uid tid : Nat} {op : Op} {ops : List Op} {c c' : Client} {status : Status}

/-- The tail is reached from the head and is the last version, no version points at freed memory, and
    each has a row: none is the mark of a deleted one, for no drop goes well. -/
structure Sound (r : Row) : Prop where
  blank : r.tail = none → r.head = none ∧ r.current = none
  linked : ∀ t, r.tail = some t → ∃ l, Chain r.mem r.head l ∧ t ∈ l
  last : ∀ t v, r.tail = some t → r.mem.get t = some v → v.next = none
  closed : ∀ a v b, r.mem.get a = some v → v.next = some b → (r.mem.get b).isSome
  rows : ∀ a v, r.mem.get a = some v → v.isDelete = false ∧ v.data.isSome

variable {t new : Nat} {v w d : Version} {l : List Nat}

theorem Sound.tailLive (h : Sound r) : r.TailLive := by
  intro t ht
  obtain ⟨l, hchain, htl⟩ := h.linked t ht
  obtain ⟨v, hv⟩ := hchain.get_of_mem htl
  rw [hv]
  rfl

theorem ne_of_live {m : Memory} {a b : Nat} (ha : (m.get a).isSome) (hb : m.get b = none) : a ≠ b := by
  rintro rfl
  rw [hb] at ha
  cases ha

theorem live_appended (uid : Nat) {a : Nat} (h : (r.mem.get a).isSome) (hnew : r.mem.get new = none) :
    ((r.appended uid t v new w).mem.get a).isSome := by
  by_cases ha : a = t
  · rw [ha, Row.get_appended_tail]
    rfl
  · rwa [Row.get_appended_of_ne ha (ne_of_live h hnew)]

/-- What is in the memory with a new version is this version, the one before it, or as before. -/
theorem get_appended_cases (uid : Nat) {a : Nat} {x : Version} (hne : new ≠ t)
    (hx : (r.appended uid t v new w).mem.get a = some x) :
    a = t ∧ x = { v with next := some new } ∨ a = new ∧ x = w ∨ r.mem.get a = some x := by
  by_cases hat : a = t
  · subst hat
    rw [Row.get_appended_tail] at hx
    exact .inl ⟨rfl, (Option.some.inj hx).symm⟩
  · by_cases han : a = new
    · subst han
      rw [Row.get_appended_new hne] at hx
      exact .inr (.inl ⟨rfl, (Option.some.inj hx).symm⟩)
    · rw [Row.get_appended_of_ne hat han] at hx
      exact .inr (.inr hx)

theorem Sound.changed (h : Sound r) (ht : r.tail = some t) (hv : r.mem.get t = some v)
    (hnew : r.mem.get new = none) (hw : w.next = none) (hrow : w.isDelete = false ∧ w.data.isSome) :
    Sound { r.appended uid t v new w with tail := some new } := by
  have hne : new ≠ t := (ne_of_live (hv ▸ rfl) hnew).symm
  constructor
  · nofun
  · rintro _ ⟨⟩
    obtain ⟨l, hchain, htl⟩ := h.linked t ht
    have happended : ∃ l', Chain (r.appended uid t v new w).mem r.head l' ∧ t ∈ l' ∧ new ∈ l' :=
      Row.chain_appended hchain htl hnew hw
    obtain ⟨l', hchain', -, hnewl'⟩ := happended
    exact ⟨l', hchain', hnewl'⟩
  · rintro _ x ⟨⟩ hx
    have hget : (r.appended uid t v new w).mem.get new = some w := Row.get_appended_new hne
    cases hget.symm.trans hx
    exact hw
  · intro a x b hx hb
    obtain ⟨rfl, rfl⟩ | ⟨rfl, rfl⟩ | hx := get_appended_cases uid hne hx
    · cases hb
      have hget : (r.appended uid a v new w).mem.get new = some w := Row.get_appended_new hne
      rw [hget]
      rfl
    · rw [hw] at hb
      cases hb
    · exact live_appended uid (h.closed a x b hx hb) hnew
  · intro a x hx
    obtain ⟨rfl, rfl⟩ | ⟨rfl, rfl⟩ | hx := get_appended_cases uid hne hx
    · exact h.rows a v hv
    · exact hrow
    · exact h.rows a x hx

theorem Sound.first (h : Sound r) (uid : Nat) (hnew : r.mem.get new = none) (data : RowData) :
    Sound { r with
      owner := uid
      mem := r.mem.put new (Version.allocForInsert data)
      tail := some new, current := some new, head := some new } := by
  have hget {a : Nat} {x : Version} (hx : (r.mem.put new (.allocForInsert data)).get a = some x) :
      x = .allocForInsert data ∨ r.mem.get a = some x := by
    by_cases ha : a = new
    · subst ha
      rw [get_put_self] at hx
      exact .inl (Option.some.inj hx).symm
    · rw [get_put_of_ne ha] at hx
      exact .inr hx
  constructor
  · nofun
  · rintro s ⟨⟩
    exact ⟨[new], .cons get_put_self .nil, by simp⟩
  · rintro s x ⟨⟩ hx
    cases get_put_self.symm.trans hx
    rfl
  · intro a x b hx hb
    obtain rfl | hx := hget hx
    · cases hb
    · have hlive := h.closed a x b hx hb
      exact (get_put_of_ne (ne_of_live hlive hnew)).symm ▸ hlive
  · intro a x hx
    obtain rfl | hx := hget hx
    · exact ⟨rfl, rfl⟩
    · exact h.rows a x hx

theorem Sound.wrote (h : Sound r) (hnew : r.mem.get op.new = none)
    (hw : Wrote r uid tid op status r') : Sound r' := by
  cases hw with
  | refused => exact h
  | unlocked => exact ⟨h.blank, h.linked, h.last, h.closed, h.rows⟩
  | first => exact h.first uid hnew _
  | behind _ hd hdelete _ =>
    rw [(h.rows _ _ hd).1] at hdelete
    cases hdelete
  | changed hreach => exact h.changed hreach.tail hreach.get hnew rfl ⟨rfl, rfl⟩

theorem Written.sound (h : Written r) : Sound r := by
  induction h with
  | start =>
    constructor
    · intro _
      exact ⟨rfl, rfl⟩
    · intro t ht
      cases ht
    · intro t v ht
      cases ht
    · intro a v b hv
      cases hv
    · intro a v hv
      cases hv
  | write _ hnew _ happly ih => exact ih.wrote hnew (wrote_of_apply happly).2
  | commit _ ih => exact ⟨fun ht => ⟨(ih.blank ht).1, ht⟩, ih.linked, ih.last, ih.closed, ih.rows⟩

theorem Settled.sound (h : Settled r) : Sound r := by
  obtain ⟨r₀, h₀, rfl⟩ := h
  exact h₀.commit.sound

theorem Settled.current_eq (h : Settled r) : r.current = r.tail := by
  obtain ⟨r₀, _, rfl⟩ := h
  rfl

theorem Settled.owner_eq (h : Settled r) : r.owner = 0 := by
  obtain ⟨r₀, _, rfl⟩ := h
  rfl

/-! ## Operations that are answered with an error -/

theorem Op.Idle.safe (h : op.Idle r uid) : op.Safe r uid := by
  cases op with
  | insert new data => trivial
  | update new change =>
    intro t v hreach
    obtain hrefused | ⟨t', v', hreach', hunknown⟩ := h
    · exact absurd (.inl hrefused) hreach.not_refused
    · cases hreach.unique hreach'
      exact .inl hunknown
  | drop new =>
    intro t v hreach
    obtain hrefused | hfalse := h
    · exact hreach.not_refused (.inl hrefused)
    · exact hfalse

/-- An operation that goes well is not one of these. -/
theorem Wrote.not_idle (h : Wrote r uid tid op none r') : ¬op.Idle r uid := by
  cases h with
  | first htail hlock =>
    rintro (hrefused | hfalse)
    · have hmissing : r.tailMissing = .ok false := hrefused
      rw [Row.tailMissing_none htail] at hmissing
      cases hmissing
    · exact hfalse
  | behind htail hd hdelete hlock =>
    rintro (hrefused | hfalse)
    · have hmissing : r.tailMissing = .ok false := hrefused
      rw [Row.tailMissing_some htail hd, hdelete] at hmissing
      cases hmissing
    · exact hfalse
  | changed hreach hroomy _ =>
    rintro (hrefused | ⟨t', v', hreach', hunknown⟩)
    · exact hreach.not_refused (.inl hrefused)
    · cases hreach.unique hreach'
      exact hroomy.not_unknown hunknown

/-- To take the lock away from a row that was not locked does nothing. -/
theorem Wrote.row_of_idle (h : Wrote r uid tid op status r') (howner : r.owner = 0)
    (hidle : op.Idle r uid) : (∃ e, status = some e) ∧ r' = r := by
  cases status with
  | none => exact absurd hidle h.not_idle
  | some e =>
    refine ⟨⟨e, rfl⟩, ?_⟩
    cases h with
    | refused => rfl
    | unlocked => rw [← howner]

private theorem idle_run (hsound : Sound r) (howner : r.owner = 0) (h : ∀ op ∈ ops, op.Idle r uid)
    (c : Client) : runOps uid ops c r = .ok (c, r) := by
  induction ops with
  | nil => rfl
  | cons op ops ih =>
    have hidle := h op (by simp)
    obtain ⟨status, r', happly, hwrote⟩ :=
      @apply_spec r uid c.m_txnId op hsound.tailLive hidle.safe
    obtain ⟨⟨e, rfl⟩, rfl⟩ := hwrote.row_of_idle howner hidle
    rw [runOps, happly, Exec.ok_bind]
    exact ih fun op hop => h op (by simp [hop])

/-! ## Operations that are accepted -/

/-- The tail is another version, and that of the row before is still there. -/
structure Moved (r r' : Row) : Prop where
  tail : r'.tail ≠ r.tail
  live : ∀ t, r.tail = some t → (r'.mem.get t).isSome

theorem Wrote.live (h : Wrote r uid tid op status r') (hnew : r.mem.get op.new = none) {a : Nat}
    (ha : (r.mem.get a).isSome) : (r'.mem.get a).isSome := by
  cases h with
  | refused => exact ha
  | unlocked => exact ha
  | first => exact (get_put_of_ne (ne_of_live ha hnew)).symm ▸ ha
  | behind => exact live_appended uid ha hnew
  | changed => exact live_appended uid ha hnew

theorem Moved.wrote (h : Moved r r₁) (hnew : r₁.mem.get op.new = none)
    (hw : Wrote r₁ uid tid op status r') : Moved r r' := by
  refine ⟨?_, fun t ht => hw.live hnew (h.live t ht)⟩
  have hfresh : some op.new ≠ r.tail := fun heq =>
    ne_of_live (h.live op.new heq.symm) hnew rfl
  cases hw with
  | refused => exact h.tail
  | unlocked => exact h.tail
  | first => exact hfresh
  | behind => exact h.tail
  | changed => exact hfresh

theorem Moved.run (h : Moved r r₁) (hall : Allocated uid ops c r₁)
    (hrun : runOps uid ops c r₁ = .ok (c', r')) : Moved r r' := by
  induction ops generalizing c r₁ with
  | nil =>
    cases hrun
    exact h
  | cons op ops ih =>
    obtain ⟨hnew, -, hall⟩ := hall
    obtain ⟨⟨status, r₂⟩, happly, hrun⟩ := Exec.of_bind hrun
    exact ih (h.wrote hnew (wrote_of_apply happly).2) (hall status r₂ happly) hrun

/-- An operation that is accepted moves the tail of a row that was committed last. -/
theorem moved_of_accepted (hset : Settled r) (hnew : r.mem.get op.new = none)
    (hw : Wrote r uid tid op status r') (h : ¬op.Idle r uid) : Moved r r' := by
  refine ⟨?_, fun t ht => hw.live hnew (hset.sound.tailLive t ht)⟩
  have hlock : r.Lockable uid := .inl hset.owner_eq
  have hfresh : some op.new ≠ r.tail := fun heq =>
    ne_of_live (hset.sound.tailLive op.new heq.symm) hnew rfl
  cases hw with
  | refused hrefused => exact absurd (.inl (hrefused.resolve_right (not_not_intro hlock))) h
  | unlocked hreach hunknown => exact absurd (.inr ⟨_, _, hreach, hunknown⟩) h
  | first => exact hfresh
  | behind _ hd hdelete _ =>
    rw [(hset.sound.rows _ _ hd).1] at hdelete
    cases hdelete
  | changed => exact hfresh

private theorem moved_run (hset : Settled r) (hall : Allocated uid ops c r)
    (hrun : runOps uid ops c r = .ok (c', r')) (h : ¬∀ op ∈ ops, op.Idle r uid) : Moved r r' := by
  induction ops generalizing c with
  | nil => exact absurd (List.forall_mem_nil _) h
  | cons op ops ih =>
    obtain ⟨hnew, -, hall⟩ := hall
    obtain ⟨⟨status, r₁⟩, happly, hlater⟩ := Exec.of_bind hrun
    have hwrote := (wrote_of_apply happly).2
    have hops := hall status r₁ happly
    by_cases hop : op.Idle r uid
    · obtain ⟨-, rfl⟩ := hwrote.row_of_idle hset.owner_eq hop
      exact ih hops hlater fun hrest => h (List.forall_mem_cons.mpr ⟨hop, hrest⟩)
    · exact (moved_of_accepted hset hnew hwrote hop).run hops hlater

/-! ## The rollback -/

theorem rollback_started (h : c.m_start = true) :
    c.rollback r = .ok (some (.TRANSACTION_NOT_START, "transaction not start"), c, r) := by
  simp [Client.rollback, h]

theorem rollback_elsewhere (hstart : c.m_start = false) (h : c.hasRow = false) :
    c.rollback r = .ok (none, { c with m_start := false, hasRow := false }, r) := by
  simp [Client.rollback, hstart, h]

theorem rollback_row (hstart : c.m_start = false) (h : c.hasRow = true) :
    c.rollback r = r.rollback >>= fun r =>
      .ok (none, { c with m_start := false, hasRow := false }, r) := by
  simp [Client.rollback, hstart, h]

/-- A rollback does not write the tail. -/
theorem tail_of_rollback (h : c.rollback r = .ok (status, c', r')) : r'.tail = r.tail := by
  cases hstart : c.m_start with
  | true =>
    cases (rollback_started hstart).symm.trans h
    rfl
  | false =>
    cases hrow : c.hasRow with
    | false =>
      cases (rollback_elsewhere hstart hrow).symm.trans h
      rfl
    | true =>
      rw [rollback_row hstart hrow] at h
      obtain ⟨r₁, hrollback, h⟩ := Exec.of_bind h
      cases h
      obtain ⟨⟨a, v⟩, -, hrollback⟩ := Exec.of_bind hrollback
      obtain ⟨mem, -, hrollback⟩ := Exec.of_bind hrollback
      cases hrollback
      rfl

theorem Restored.refl (h : Sound r) : Restored r r := by
  refine ⟨rfl, rfl, rfl, ?_⟩
  cases ht : r.tail with
  | none =>
    rw [(h.blank ht).1]
    exact ⟨[], .nil, .nil, fun a ha => nomatch ha⟩
  | some t =>
    obtain ⟨l, hchain, _⟩ := h.linked t ht
    exact ⟨l, hchain, hchain, fun _ _ => rfl⟩

theorem restored_of_same (hset : Settled r) (hpointers : r' = { r with mem := r'.mem })
    (hsame : ∀ a, r'.mem.get a = r.mem.get a) :
    Restored r r' ∧ ∀ calls, Row.SameAnswers calls r r' := by
  constructor
  · obtain ⟨-, -, -, l, hchain, -, -⟩ := Restored.refl hset.sound
    have hhead : r'.head = r.head := by rw [hpointers]
    refine ⟨by rw [hpointers], hhead, by rw [hpointers], l, hchain, ?_, fun a _ => hsame a⟩
    rw [hhead]
    exact hchain.congr fun a _ => hsame a
  · have htwin : Row.Twin r r' := by
      refine ⟨hpointers, ⟨fun {a v} hv => (hsame a).trans hv, fun {a v b} _ _ => hsame b⟩, ?_, ?_⟩
      · exact fun a _ => hsame a
      · exact fun a _ => hsame a
    exact htwin.sameAnswers

/-- A rollback of a row with nothing behind its current version. -/
theorem rollback_settled (hset : Settled r) (ht : r.current = some t) :
    ∃ r', r.rollback = .ok r' ∧ Restored r r' ∧ ∀ calls, Row.SameAnswers calls r r' := by
  have htail : r.tail = some t := hset.current_eq.symm.trans ht
  obtain ⟨v, hv⟩ := Option.isSome_iff_exists.mp (hset.sound.tailLive t htail)
  have hnext := hset.sound.last t v htail hv
  have hchain : Chain r.mem (some t) [t] := .cons hv (hnext ▸ .nil)
  refine ⟨_, Row.rollback_spec ht hv hchain, restored_of_same hset ?_ ?_⟩
  · rw [Row.rolledBack, hset.owner_eq]
  · intro a
    rw [Row.rolledBack, get_freeAll, if_neg (by simp)]
    by_cases ha : a = t
    · rw [ha, get_put_self, hv, ← hnext]
    · exact get_put_of_ne ha

/-! ## When a rollback undoes -/

theorem undone_iff_of_idle (hset : Settled r) (h : ∀ op ∈ ops, op.Idle r uid) :
    Undone uid c ops r ↔ c.m_start = true ∨ c.hasRow = false ∨ r.current ≠ none := by
  have hrun := idle_run hset.sound hset.owner_eq h c
  have hsame : Restored r r ∧ ∀ calls, Row.SameAnswers calls r r :=
    restored_of_same hset rfl fun _ => rfl
  constructor
  · rintro ⟨c', r', status, c'', r'', hrun', hrollback, -⟩
    cases hrun.symm.trans hrun'
    cases hstart : c.m_start with
    | true => exact .inl rfl
    | false =>
      cases hrow : c.hasRow with
      | false => exact .inr (.inl rfl)
      | true =>
        refine .inr (.inr fun hnone => ?_)
        rw [rollback_row hstart hrow, Row.rollback, hnone] at hrollback
        cases hrollback
  · intro hrollback
    cases hstart : c.m_start with
    | true => exact ⟨_, _, _, _, r, hrun, rollback_started hstart, hsame⟩
    | false =>
      cases hrow : c.hasRow with
      | false => exact ⟨_, _, _, _, r, hrun, rollback_elsewhere hstart hrow, hsame⟩
      | true =>
        have hcurrent : r.current ≠ none := by simpa [hstart, hrow] using hrollback
        obtain ⟨t, ht⟩ := Option.ne_none_iff_exists'.mp hcurrent
        obtain ⟨r', hr', hrestored⟩ := rollback_settled hset ht
        refine ⟨_, _, none, { c with m_start := false, hasRow := false }, r', hrun, ?_, hrestored⟩
        rw [rollback_row hstart hrow, hr']
        rfl

/-- On a row that was committed last, the operations of a client are undone by its rollback in the
    cases of `Undoable` only. -/
theorem rollback_undone_iff (hset : Settled r) (hall : Allocated uid ops c r) :
    Undone uid c ops r ↔ Undoable uid c ops r := by
  by_cases h : ∀ op ∈ ops, op.Idle r uid
  · rw [undone_iff_of_idle hset h, Undoable, and_iff_right h]
  · refine iff_of_false ?_ fun hundoable => h hundoable.1
    rintro ⟨c', r', status, c'', r'', hrun, hrollback, hrestored, -⟩
    have hmoved := moved_run hset hall hrun h
    exact hmoved.tail ((tail_of_rollback hrollback).symm.trans hrestored.tail)

/-! ## Rows of one version -/

/-- A row that was inserted, and committed. -/
def oneRow : Row :=
  { current := some 7, head := some 7, tail := some 7, owner := 0
    mem := [(7, .allocForInsert oneValue)] }

private theorem settled_oneRow : Settled oneRow := by
  have hinsert : (Op.insert 7 oneValue).apply 1 0 {} = .ok (none, { oneRow with owner := 1 }) := rfl
  exact ⟨_, .write .start rfl (small_oneValue ..) hinsert, rfl⟩

/-- A row that is there is inserted again, and an update names a column that it does not have. -/
theorem rollback_undone_iff_oneRow :
    Undone 2 { hasRow := true } [.insert 8 oneValue, .update 9 [⟨0, some [6]⟩, ⟨2, none⟩]] oneRow := by
  have hall : Allocated 2 [.insert 8 oneValue, .update 9 [⟨0, some [6]⟩, ⟨2, none⟩]]
      { hasRow := true } oneRow := by
    refine ⟨rfl, small_oneValue .., ?_⟩
    rintro status r' ⟨⟩
    refine ⟨rfl, ?_, fun _ _ _ => trivial⟩
    rintro t v d ⟨⟩ ⟨⟩ ⟨⟩
    decide
  refine (rollback_undone_iff settled_oneRow hall).mpr ⟨?_, .inr (.inr nofun)⟩
  have hreach : oneRow.Reaches 2 7 (.allocForInsert oneValue) := ⟨rfl, rfl, rfl, .inl rfl⟩
  have hunknown : (Version.allocForInsert oneValue).Unknown [⟨0, some [6]⟩, ⟨2, none⟩] :=
    ⟨oneValue, rfl, ⟨2, none⟩, rfl, by decide⟩
  intro op hop
  simp only [List.mem_cons, List.not_mem_nil, or_false] at hop
  obtain rfl | rfl := hop
  · exact .inl rfl
  · exact .inr ⟨7, _, hreach, hunknown⟩

/-- The first insert of a row stays after a rollback. -/
theorem rollback_keeps_insert :
    Settled {} ∧ Allocated 1 [.insert 7 oneValue] {} {} ∧ ¬Undone 1 {} [.insert 7 oneValue] {} := by
  refine ⟨⟨{}, .start, rfl⟩, ⟨rfl, small_oneValue .., fun _ _ _ => trivial⟩, ?_⟩
  rintro ⟨c', r', status, c'', r'', hrun, hrollback, hrestored, -⟩
  cases hrun
  cases hrollback
  cases hrestored.current

end DBStream.Native.KVDB
