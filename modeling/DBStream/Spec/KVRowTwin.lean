import DBStream.Spec.KVRowSteps

/-!
# Rows that cannot be told apart

A row that was rolled back may have cells in memory that nothing points at.  `Row.Twin` says that two
rows differ in such cells only, and `Row.Twin.sameAnswers` that then all later operations, whoever's
they are, give the same answers.
-/

namespace DBStream.Native.KVDB

open Meta Cells

/-! ## Calls -/

/-- What can be done with a row. -/
inductive RowCall where
  | write (uid tid : Nat) (op : Op)
  | commit
  | rollback
  | select

namespace Row

/-- The answer to a call, and the row after it. -/
def call (r : Row) : RowCall → Exec ((Status × Option Version) × Row)
  | .write uid tid op => do
    let (status, r) ← op.apply uid tid r
    return ((status, none), r)
  | .commit => return ((none, none), r.commit)
  | .rollback => do
    let r ← r.rollback
    return ((none, none), r)
  | .select => do
    let answer ← r.select
    return (answer, r)

/-- Two runs end with the same answer and related rows, or with the same fault. -/
def Agrees {α : Type} (R : Row → Row → Prop) : Exec (α × Row) → Exec (α × Row) → Prop
  | .ok (a, r), .ok (a', r') => a = a' ∧ R r r'
  | .error e, .error e' => e = e'
  | _, _ => False

/-- Two rows give the same answers to a list of calls. -/
def SameAnswers : List RowCall → Row → Row → Prop
  | [], _, _ => True
  | c :: calls, r, r' => Agrees (SameAnswers calls) (r.call c) (r'.call c)

/-! ## Twins -/

/-- The second row has cells beside those of the first that nothing in the first points at. -/
structure Twin (r r' : Row) : Prop where
  pointers : r' = { r with mem := r'.mem }
  leaks : Leaks Version.next r.mem r'.mem
  current : ∀ a, r.current = some a → r'.mem.get a = r.mem.get a
  tail : ∀ a, r.tail = some a → r'.mem.get a = r.mem.get a

variable {r r' : Row} {α β : Type} {R S : Row → Row → Prop}

theorem Agrees.mono {x x' : Exec (α × Row)} (h : Agrees R x x') (hRS : ∀ r r', R r r' → S r r') :
    Agrees S x x' := by
  cases x <;> cases x'
  · exact h
  · exact h
  · exact h
  · exact ⟨h.1, hRS _ _ h.2⟩

theorem Agrees.bind {x x' : Exec (α × Row)} {f : α × Row → Exec (β × Row)} (h : Agrees R x x')
    (hf : ∀ a r r', R r r' → Agrees S (f (a, r)) (f (a, r'))) : Agrees S (x >>= f) (x' >>= f) := by
  cases x with
  | error e =>
    cases x' with
    | error e' => exact h
    | ok y' => exact h.elim
  | ok y =>
    cases x' with
    | error e' => exact h.elim
    | ok y' =>
      obtain ⟨a, r⟩ := y
      obtain ⟨a', r'⟩ := y'
      obtain ⟨rfl, hR⟩ := h
      exact hf a r r' hR

theorem read_congr {m m' : Memory} {p : Option Nat} (h : ∀ a, p = some a → m'.get a = m.get a) :
    read m' p = read m p := by
  cases p with
  | none => rfl
  | some a =>
    unfold read
    dsimp only
    rw [h a rfl]

theorem read_cases (m : Memory) (p : Option Nat) :
    (∃ e, read m p = .error e) ∨ ∃ a v, p = some a ∧ m.get a = some v ∧ read m p = .ok (a, v) := by
  cases hread : read m p with
  | error e => exact .inl ⟨e, rfl⟩
  | ok av => exact .inr ⟨av.1, av.2, (read_eq_ok.mp hread).1, (read_eq_ok.mp hread).2, rfl⟩

end Row

/-- An update of a version ends in the same way whatever else is in the memory. -/
theorem Version.update_same (v : Version) (m m' : Memory) (t new tid : Nat)
    (change : List ColumnChange) :
    (∃ f, v.update m t new tid change = .error f ∧ v.update m' t new tid change = .error f) ∨
    (∃ e, v.update m t new tid change = .ok (some e, m) ∧
      v.update m' t new tid change = .ok (some e, m')) ∨
    (∃ w : Version, w.next = none ∧
      v.update m t new tid change = .ok (none, (m.put new w).put t { v with next := some new }) ∧
      v.update m' t new tid change = .ok (none, (m'.put new w).put t { v with next := some new })) := by
  unfold update
  cases v.data with
  | none => exact .inl ⟨_, rfl, rfl⟩
  | some d =>
    rw [written, Exec.ok_bind, Exec.ok_bind]
    obtain ⟨f, hdelta⟩ | ⟨⟨status, delta⟩, hdelta⟩ : (∃ f, d.deltaSize change 0 = .error f) ∨
        ∃ x, d.deltaSize change 0 = .ok x := by
      cases d.deltaSize change 0 with
      | error f => exact .inl ⟨f, rfl⟩
      | ok x => exact .inr ⟨x, rfl⟩
    · rw [hdelta]
      exact .inl ⟨f, rfl, rfl⟩
    · rw [hdelta, Exec.ok_bind, Exec.ok_bind]
      cases status with
      | some e => exact .inr (.inl ⟨e, rfl, rfl⟩)
      | none =>
        cases v.size with
        | none => exact .inl ⟨_, rfl, rfl⟩
        | some size =>
          simp only [written, Exec.ok_bind]
          split_ifs
          · exact .inl ⟨_, rfl, rfl⟩
          · exact .inr (.inr ⟨updated d t tid change, rfl, rfl, rfl⟩)

namespace Row.Twin

variable {r r' : Row}

theorem tailMissing (h : Twin r r') : r'.tailMissing = r.tailMissing := by
  unfold Row.tailMissing
  rw [h.pointers]
  cases htail : r.tail with
  | none => rfl
  | some t =>
    dsimp only
    rw [read_congr fun a ha => h.tail a (htail.trans ha)]

theorem appended (h : Twin r r') (uid : Nat) {t new : Nat} {v w : Version} (tail : Option Nat)
    (hw : w.next = none) (htail : tail = r.tail ∨ tail = some new) :
    Twin { r.appended uid t v new w with tail := tail }
      { r'.appended uid t v new w with tail := tail } := by
  -- where the memories agreed they still do, and also at the new version
  have hagree {a : Nat} (ha : r'.mem.get a = r.mem.get a) :
      (r'.appended uid t v new w).mem.get a = (r.appended uid t v new w).mem.get a :=
    get_put_congr (get_put_congr ha)
  have hnew : (r'.appended uid t v new w).mem.get new = (r.appended uid t v new w).mem.get new := by
    refine get_put_congr ?_
    rw [get_put_self, get_put_self]
  constructor
  · rw [h.pointers]
    rfl
  · refine (h.leaks.put fun b hb => ?_).put fun b hb => ?_
    · rw [hw] at hb
      cases hb
    · cases hb
      exact hnew
  · intro a ha
    exact hagree (h.current a ha)
  · intro a ha
    obtain rfl | rfl := htail
    · exact hagree (h.tail a ha)
    · cases ha
      exact hnew

theorem tail_eq (h : Twin r r') : r'.tail = r.tail := by
  rw [h.pointers]

theorem lock (h : Twin r r') (uid : Nat) :
    r.lock uid = none ∧ r'.lock uid = none ∨
      r.lock uid = some { r with owner := uid } ∧ r'.lock uid = some { r' with owner := uid } := by
  have howner : r'.owner = r.owner := by rw [h.pointers]
  by_cases hlock : r.Lockable uid
  · have hlock' : r'.Lockable uid := by rwa [Lockable, howner]
    exact .inr ⟨lock_of hlock, lock_of hlock'⟩
  · have hlock' : ¬r'.Lockable uid := by rwa [Lockable, howner]
    exact .inl ⟨lock_none hlock, lock_none hlock'⟩

private theorem unlock (h : Twin r r') :
    Twin r.unlockWithOutCheck { r'.unlockWithOutCheck with tail := r.tail } := by
  refine ⟨?_, h.leaks, h.current, h.tail⟩
  rw [h.pointers]
  rfl

theorem commit (h : Twin r r') : Twin r.commit r'.commit := by
  refine ⟨?_, h.leaks, h.tail, h.tail⟩
  rw [h.pointers]
  rfl

theorem first (h : Twin r r') (uid new : Nat) {w : Version} (hw : w.next = none) :
    Twin
      { r with owner := uid, mem := r.mem.put new w, tail := some new, current := some new,
               head := some new }
      { r' with owner := uid, mem := r'.mem.put new w, tail := some new, current := some new,
                head := some new } := by
  have hnew : (r'.mem.put new w).get new = (r.mem.put new w).get new :=
    get_put_self.trans get_put_self.symm
  refine ⟨rfl, h.leaks.put fun b hb => ?_, ?_, ?_⟩
  · rw [hw] at hb
    cases hb
  · rintro a ⟨⟩
    exact hnew
  · rintro a ⟨⟩
    exact hnew

theorem insert (h : Twin r r') (uid new : Nat) (data : RowData) :
    Agrees Twin (r.insert uid new data) (r'.insert uid new data) := by
  unfold Row.insert
  rw [h.tailMissing]
  cases r.tailMissing with
  | error e => exact rfl
  | ok missing =>
    cases missing with
    | false => exact ⟨rfl, h⟩
    | true =>
      obtain ⟨hlock, hlock'⟩ | ⟨hlock, hlock'⟩ := h.lock uid
      · rw [hlock, hlock']
        exact ⟨rfl, h⟩
      · rw [hlock, hlock']
        rw [h.tail_eq]
        cases htail : r.tail with
        | none => exact ⟨rfl, h.first uid new rfl⟩
        | some t =>
          dsimp only
          rw [read_congr fun a ha => h.tail a (htail.trans ha)]
          obtain ⟨e, hread⟩ | ⟨a, v, ha, _, hread⟩ := read_cases r.mem (some t)
          · rw [hread]
            exact rfl
          · cases ha
            rw [hread]
            exact ⟨rfl, h.appended uid (some t) rfl (.inl htail.symm)⟩

theorem update (h : Twin r r') (uid new tid : Nat) (change : List ColumnChange) :
    Agrees Twin (r.update uid new tid change) (r'.update uid new tid change) := by
  unfold Row.update
  rw [h.tailMissing]
  cases r.tailMissing with
  | error e => exact rfl
  | ok missing =>
    cases missing with
    | true => exact ⟨rfl, h⟩
    | false =>
      obtain ⟨hlock, hlock'⟩ | ⟨hlock, hlock'⟩ := h.lock uid
      · rw [hlock, hlock']
        exact ⟨rfl, h⟩
      · rw [hlock, hlock']
        simp only [Exec.ok_bind, Bool.false_eq_true, if_false]
        rw [h.tail_eq, read_congr h.tail]
        obtain ⟨e, hread⟩ | ⟨t, v, _, _, hread⟩ := read_cases r.mem r.tail
        · rw [hread]
          exact rfl
        · rw [hread, Exec.ok_bind, Exec.ok_bind]
          dsimp only
          obtain ⟨f, hupdate, hupdate'⟩ | ⟨e, hupdate, hupdate'⟩ | ⟨w, hw, hupdate, hupdate'⟩ :=
            v.update_same r.mem r'.mem t new tid change
          · rw [hupdate, hupdate']
            exact rfl
          · rw [hupdate, hupdate']
            exact ⟨rfl, h.unlock⟩
          · rw [hupdate, hupdate']
            exact ⟨rfl, h.appended uid (some new) hw (.inr rfl)⟩

theorem drop (h : Twin r r') (uid new tid : Nat) :
    Agrees Twin (r.drop uid new tid) (r'.drop uid new tid) := by
  unfold Row.drop
  rw [h.tailMissing]
  cases r.tailMissing with
  | error e => exact rfl
  | ok missing =>
    cases missing with
    | true => exact ⟨rfl, h⟩
    | false =>
      obtain ⟨hlock, hlock'⟩ | ⟨hlock, hlock'⟩ := h.lock uid
      · rw [hlock, hlock']
        exact ⟨rfl, h⟩
      · rw [hlock, hlock']
        simp only [Exec.ok_bind, Bool.false_eq_true, if_false]
        rw [h.tail_eq, read_congr h.tail]
        obtain ⟨e, hread⟩ | ⟨t, v, _, _, hread⟩ := read_cases r.mem r.tail
        · rw [hread]
          exact rfl
        · rw [hread]
          exact rfl

theorem freeFrom {fuel fuel' : Nat} {m m' : Memory} {p : Option Nat}
    (h : Leaks Version.next m m') (hp : ∀ a, p = some a → m'.get a = m.get a)
    (hfuel : m.length < fuel) (hfuel' : m'.length < fuel') :
    (∃ e, freeFrom fuel p m = .error e ∧ freeFrom fuel' p m' = .error e) ∨
      ∃ n n', freeFrom fuel p m = .ok n ∧ freeFrom fuel' p m' = .ok n' ∧
        Leaks Version.next n n' ∧ ∀ b, m'.get b = m.get b → n'.get b = n.get b := by
  -- on the fuel; every turn frees a cell
  induction fuel generalizing fuel' m m' p with
  | zero => omega
  | succ fuel ih =>
    obtain ⟨fuel', rfl⟩ : ∃ n, fuel' = n + 1 := Nat.exists_eq_add_one.mpr (by omega)
    cases p with
    | none => exact .inr ⟨m, m', by simp [Row.freeFrom], by simp [Row.freeFrom], h, fun _ hb => hb⟩
    | some a =>
      rw [Row.freeFrom, Row.freeFrom, read_congr hp]
      obtain ⟨e, hread⟩ | ⟨a, v, ⟨⟩, hv, hread⟩ := read_cases m (some a)
      · rw [hread]
        exact .inl ⟨e, rfl, rfl⟩
      · rw [hread, Exec.ok_bind, Exec.ok_bind]
        have hv' : m'.get a = some v := h.kept hv
        have hlt := length_free_lt hv
        have hlt' := length_free_lt hv'
        obtain ⟨e, he, he'⟩ | ⟨n, n', hn, hn', hleaks, hagree⟩ :=
          ih (h.free (a := a)) (fun b hb => get_free_congr (h.closed hv hb))
            (Nat.lt_of_lt_of_le hlt (Nat.le_of_lt_succ hfuel))
            (Nat.lt_of_lt_of_le hlt' (Nat.le_of_lt_succ hfuel'))
        · exact .inl ⟨e, he, he'⟩
        · exact .inr ⟨n, n', hn, hn', hleaks, fun b hb => hagree b (get_free_congr hb)⟩

theorem rollback (h : Twin r r') :
    (∃ e, r.rollback = .error e ∧ r'.rollback = .error e) ∨
      ∃ s s', r.rollback = .ok s ∧ r'.rollback = .ok s' ∧ Twin s s' := by
  have hcurrent : r'.current = r.current := by rw [h.pointers]
  unfold Row.rollback
  rw [hcurrent, read_congr h.current]
  obtain ⟨e, hread⟩ | ⟨c, v, _, hv, hread⟩ := read_cases r.mem r.current
  · rw [hread]
    exact .inl ⟨e, rfl, rfl⟩
  · rw [hread, Exec.ok_bind, Exec.ok_bind]
    have hput : Leaks Version.next (r.mem.put c { v with next := none })
        (r'.mem.put c { v with next := none }) := h.leaks.put fun b hb => nomatch hb
    have hnext : ∀ a, v.next = some a → (r'.mem.put c { v with next := none }).get a =
        (r.mem.put c { v with next := none }).get a := fun a ha =>
      get_put_congr (h.leaks.closed hv ha)
    obtain ⟨e, he, he'⟩ | ⟨n, n', hn, hn', hleaks, hagree⟩ :=
      freeFrom hput hnext (Nat.lt_succ_self _) (Nat.lt_succ_self _)
    · refine .inl ⟨e, ?_, ?_⟩
      · dsimp only
        rw [he]
        rfl
      · dsimp only
        rw [he']
        rfl
    · dsimp only
      rw [hn, hn']
      refine .inr ⟨_, _, rfl, rfl, ?_, hleaks, ?_, ?_⟩
      · rw [h.pointers]
        rfl
      · intro a ha
        exact hagree a (get_put_congr (h.current a ha))
      · intro a ha
        exact hagree a (get_put_congr (h.tail a ha))

theorem select (h : Twin r r') : r'.select = r.select := by
  have hcurrent : r'.current = r.current := by rw [h.pointers]
  unfold Row.select
  rw [hcurrent]
  cases hc : r.current with
  | none => rfl
  | some c =>
    dsimp only
    rw [read_congr fun a ha => h.current a (hc.trans ha)]

theorem call (h : Twin r r') (c : RowCall) : Agrees Twin (r.call c) (r'.call c) := by
  cases c with
  | write uid tid op =>
    have happly : Agrees Twin (op.apply uid tid r) (op.apply uid tid r') := by
      cases op with
      | insert new data => exact h.insert uid new data
      | update new change => exact h.update uid new tid change
      | drop new => exact h.drop uid new tid
    exact happly.bind fun status s s' hs => ⟨rfl, hs⟩
  | commit => exact ⟨rfl, h.commit⟩
  | rollback =>
    unfold Row.call
    obtain ⟨e, he, he'⟩ | ⟨s, s', hs, hs', htwin⟩ := h.rollback
    · simp only [he, he']
      exact rfl
    · simp only [hs, hs']
      exact ⟨rfl, htwin⟩
  | select =>
    unfold Row.call
    rw [h.select]
    cases r.select with
    | error e => exact rfl
    | ok answer => exact ⟨rfl, h⟩

theorem sameAnswers (h : Twin r r') (calls : List RowCall) : SameAnswers calls r r' := by
  induction calls generalizing r r' with
  | nil => exact trivial
  | cons c calls ih => exact (h.call c).mono fun s s' hs => ih hs

end Row.Twin

end DBStream.Native.KVDB
