import DBStream.Spec.KVRowSteps

/-!
# What the clients of a row see

Any number of clients take their steps on a row in any order.  Beside the row a run keeps who wrote
each version, in which of his transactions, and how the transactions ended.  `select` should show
other clients only what was committed.  The invariant `World.Inv` says why it does: `current` is
moved by a commit alone, and a client that has the row has written all that is behind `current`.
The exception is the first version of a row, which is current at once.
-/

namespace DBStream.Native.KVDB

open Function Meta

/-! ## Runs -/

/-- The steps of a client. -/
inductive Call where
  | write (op : Op)
  | commit
  | rollback
  | select
  | startTrans (tid : Nat)

/-- A row and its clients.  A transaction is a client with the number of its transactions before;
    `writer` is the transaction that wrote a version, and `outcome` whether a transaction has been
    committed or rolled back. -/
structure World where
  row : Row := {}
  client : Nat → Client := fun _ => {}
  writer : Nat → Nat × Nat := fun _ => (0, 0)
  txn : Nat → Nat := fun _ => 0
  outcome : Nat × Nat → Option Bool := fun _ => none

namespace World

variable (s : World)

def wrote (uid new : Nat) (status : Status) (row : Row) : World :=
  { s with
    row := row
    client := update s.client uid ((s.client uid).newOperator status)
    writer := if status.isNone then update s.writer new (uid, s.txn uid) else s.writer }

/-- The transaction of a client has ended. -/
def ended (uid : Nat) (committed : Bool) (status : Status) (c : Client) (row : Row) : World :=
  if status.isNone then
    { s with
      row := row
      client := update s.client uid c
      txn := update s.txn uid (s.txn uid + 1)
      outcome := update s.outcome (uid, s.txn uid) (some committed) }
  else s

def step (uid : Nat) : Call → Exec World
  | .write op => do
    let (status, row) ← op.apply uid (s.client uid).m_txnId s.row
    return s.wrote uid op.new status row
  | .commit =>
    let (status, c, row) := (s.client uid).commit s.row
    return s.ended uid true status c row
  | .rollback => do
    let (status, c, row) ← (s.client uid).rollback s.row
    return s.ended uid false status c row
  | .select => do
    let _ ← s.row.select
    return s
  | .startTrans tid =>
    return { s with client := update s.client uid ((s.client uid).startTrans tid).2 }

/-- The pool gives memory that is not in use. -/
def Allocates : Call → Prop
  | .write op => s.row.mem.get op.new = none
  | _ => True

/-- A step that the row is made for. -/
def Fits (uid : Nat) : Call → Prop
  -- the client `0` has no lock, no write may come once a rollback has freed the tail, and an update
  -- that fails would unlock the row of a client that has it
  | .write op => uid ≠ 0 ∧ s.row.TailLive ∧ op.Safe s.row uid ∧ op.Small s.row ∧
      (op.Unlocks s.row uid → s.row.owner ≠ uid)
  -- a row that is left in `m_rows` may be another client's by now
  | .commit => uid ≠ 0 ∧ ((s.client uid).m_start = false → (s.client uid).hasRow = true →
      s.row.owner = uid)
  | .rollback => uid ≠ 0 ∧ ((s.client uid).m_start = false → (s.client uid).hasRow = true →
      s.row.owner = uid)
  -- the first version of the row is shown before its insert is committed
  | .select => ∀ a, s.row.head = some a → s.row.current = some a →
      (s.writer a).1 = uid ∨ s.outcome (s.writer a) = some true
  | .startTrans _ => True

/-- The worlds that runs of such steps lead to. -/
inductive Run : World → Prop where
  | start : Run {}
  | step {s s' uid call} : Run s → s.Allocates call → s.Fits uid call →
      s.step uid call = .ok s' → Run s'

/-- What `select` shows a client is its own or has been committed, and was not rolled back. -/
def ShowsCommitted (uid : Nat) : Prop :=
  ∃ status shown, s.row.select = .ok (status, shown) ∧ ∀ v, shown = some v →
    ∃ a, s.row.current = some a ∧ s.row.mem.get a = some v ∧
      ((s.writer a).1 ≠ uid →
        s.outcome (s.writer a) = some true ∧ s.outcome (s.writer a) ≠ some false)

/-! ## The invariant -/

/-- What holds of a row between the steps. -/
structure Inv (s : World) : Prop where
  blank : s.row.current = none → s.row.head = none ∧ s.row.tail = none
  linked : ∀ c, s.row.current = some c → ∃ l, Chain s.row.mem (some c) l ∧
    ∃ t, s.row.tail = some t ∧ (t ∈ l ∨ s.row.mem.get t = none)
  idle : s.row.owner = 0 → ∀ t, s.row.tail = some t → (s.row.mem.get t).isSome →
    s.row.current = some t
  held : s.row.owner ≠ 0 →
    ((s.client s.row.owner).hasRow = true ∨ (s.client s.row.owner).m_start = true) ∧
      ∃ t, s.row.tail = some t ∧ (s.row.mem.get t).isSome ∧
        (s.row.current = some t ∨ s.writer t = (s.row.owner, s.txn s.row.owner))
  seen : ∀ c, s.row.current = some c → s.outcome (s.writer c) = some true ∨ s.row.head = some c
  pending : ∀ uid k, s.txn uid ≤ k → s.outcome (uid, k) = none

private theorem inv_start : Inv {} where
  blank _ := ⟨rfl, rfl⟩
  linked _ h := nomatch h
  idle _ _ h := nomatch h
  held h := absurd rfl h
  seen _ h := nomatch h
  pending _ _ _ := rfl

variable {s}

theorem Inv.tail (h : s.Inv) {t : Nat} (ht : s.row.tail = some t) (hlive : (s.row.mem.get t).isSome) :
    ∃ c l, s.row.current = some c ∧ Chain s.row.mem (some c) l ∧ t ∈ l := by
  cases hc : s.row.current with
  | none =>
    rw [(h.blank hc).2] at ht
    cases ht
  | some c =>
    obtain ⟨l, hchain, t', ht', hmem⟩ := h.linked c hc
    cases ht.symm.trans ht'
    refine ⟨c, l, rfl, hchain, hmem.resolve_right fun hdead => ?_⟩
    rw [hdead] at hlive
    cases hlive

/-! ## Writes -/

theorem wrote_failed (uid new : Nat) (e : ErrorCode × String) :
    s.wrote uid new (some e) s.row = s := by
  simp [wrote, Client.newOperator]

theorem Inv.first (h : s.Inv) {uid new : Nat} (huid : uid ≠ 0) (data : RowData) :
    (s.wrote uid new none { s.row with
      owner := uid
      mem := s.row.mem.put new (Version.allocForInsert data)
      tail := some new, current := some new, head := some new }).Inv where
  blank hc := nomatch hc
  linked c hc := by
    cases hc
    exact ⟨[new], .cons Cells.get_put_self .nil, new, rfl, .inl (by simp)⟩
  idle howner := absurd howner huid
  held _ := by
    refine ⟨.inl ?_, new, rfl, ?_, .inl rfl⟩
    · simp [wrote, Client.newOperator]
    · simp [wrote, Cells.get_put_self]
  seen c hc := .inr hc
  pending := h.pending

/-- A version behind the tail, made by the client that has the lock. -/
theorem Inv.behind (h : s.Inv) {uid new t : Nat} {v : Version} (w : Version) (tail : Option Nat)
    (huid : uid ≠ 0) (ht : s.row.tail = some t) (hv : s.row.mem.get t = some v) (hlock : s.row.Lockable uid)
    (hnew : s.row.mem.get new = none) (hw : w.next = none)
    (htail : tail = some t ∨ tail = some new) :
    (s.wrote uid new none { s.row.appended uid t v new w with tail := tail }).Inv := by
  obtain ⟨c, l, hc, hchain, htl⟩ := h.tail ht (hv ▸ rfl)
  have hne : ∀ a ∈ l, a ≠ new := by
    rintro a ha rfl
    obtain ⟨x, hx⟩ := hchain.get_of_mem ha
    rw [hnew] at hx
    cases hx
  have hwriter : ∀ a ∈ l, update s.writer new (uid, s.txn uid) a = s.writer a := fun a ha =>
    update_of_ne (hne a ha) _ _
  have happended : ∃ l', Chain (s.row.appended uid t v new w).mem (some c) l' ∧ t ∈ l' ∧ new ∈ l' :=
    Row.chain_appended hchain htl hnew hw
  obtain ⟨l', hchain', htl', hnewl'⟩ := happended
  constructor
  · intro hnone
    rw [show s.row.current = none from hnone] at hc
    cases hc
  · intro c' hc'
    cases hc.symm.trans hc'
    refine ⟨l', hchain', ?_⟩
    obtain rfl | rfl := htail
    · exact ⟨t, rfl, .inl htl'⟩
    · exact ⟨new, rfl, .inl hnewl'⟩
  · intro howner
    exact absurd howner huid
  · intro _
    refine ⟨.inl (by simp [wrote, Client.newOperator, Row.appended]), ?_⟩
    obtain rfl | rfl := htail
    · -- the tail stays, and is current or was written by the client before
      refine ⟨t, rfl, ?_, ?_⟩
      · simp [wrote, Row.get_appended_tail]
      · by_cases howner : s.row.owner = 0
        · exact .inl (h.idle howner t ht (hv ▸ rfl))
        · have hsame := hlock.resolve_left howner
          obtain ⟨_, t', ht', _, hmine⟩ := h.held howner
          cases ht.symm.trans ht'
          rw [hsame] at hmine
          exact hmine.imp_right fun hmine => (hwriter t htl).trans hmine
    · refine ⟨new, rfl, ?_, .inr ?_⟩
      · simp [wrote, Row.get_appended_new (hne t htl).symm]
      · simp [wrote, Row.appended]
  · intro c' hc'
    cases hc.symm.trans hc'
    have hcl : c ∈ l := by
      cases hchain
      simp
    have := h.seen c hc
    rw [← hwriter c hcl] at this
    exact this
  · exact h.pending

/-! ## Ends of transactions -/

theorem Inv.pending_ended (h : s.Inv) (uid : Nat) (b : Bool) :
    ∀ u k, update s.txn uid (s.txn uid + 1) u ≤ k →
      update s.outcome (uid, s.txn uid) (some b) (u, k) = none := by
  intro u k hk
  by_cases hu : u = uid
  · subst hu
    rw [update_self] at hk
    rw [update_of_ne (by simp; omega)]
    exact h.pending u k (by omega)
  · rw [update_of_ne hu] at hk
    rw [update_of_ne (by simp [hu])]
    exact h.pending u k hk

theorem Inv.committed_ended (h : s.Inv) (uid : Nat) (b : Bool) {w : Nat × Nat}
    (hw : s.outcome w = some true) : update s.outcome (uid, s.txn uid) (some b) w = some true := by
  rw [update_of_ne]
  · exact hw
  · rintro rfl
    rw [h.pending uid _ le_rfl] at hw
    cases hw

theorem Inv.ended_elsewhere (h : s.Inv) (uid : Nat) (b : Bool) (c : Client)
    (hstart : (s.client uid).m_start = false) (hrow : (s.client uid).hasRow = false) :
    (s.ended uid b none c s.row).Inv where
  blank := h.blank
  linked := h.linked
  idle := h.idle
  held howner := by
    obtain ⟨hclient, t, ht, hlive, hmine⟩ := h.held howner
    -- the client that has the row is another one
    have hne : s.row.owner ≠ uid := by
      intro heq
      rw [heq, hstart, hrow] at hclient
      simp at hclient
    refine ⟨?_, t, ht, hlive, ?_⟩
    · simpa [ended, update_of_ne hne] using hclient
    · simpa [ended, update_of_ne hne] using hmine
  seen c hc := (h.seen c hc).imp_left fun hw => h.committed_ended uid b hw
  pending := h.pending_ended uid b

theorem Inv.commit (h : s.Inv) {uid : Nat} (hfits : s.Fits uid .commit) :
    ∃ s', s.step uid .commit = .ok s' ∧ s'.Inv := by
  obtain ⟨huid, howner⟩ := hfits
  unfold step Client.commit
  cases hstart : (s.client uid).m_start with
  | true => exact ⟨s, rfl, h⟩
  | false =>
    cases hrow : (s.client uid).hasRow with
    | false => exact ⟨_, rfl, h.ended_elsewhere uid true _ hstart hrow⟩
    | true =>
      have howner := howner hstart hrow
      obtain ⟨_, t, ht, hlive, hmine⟩ := h.held (howner ▸ huid)
      obtain ⟨c, l, hc, hchain, htl⟩ := h.tail ht hlive
      refine ⟨_, rfl, ?_⟩
      constructor
      · intro hnone
        rw [show s.row.tail = none from hnone] at ht
        cases ht
      · intro c' hc'
        cases ht.symm.trans hc'
        obtain ⟨l₁, l₂, rfl⟩ := List.append_of_mem htl
        exact ⟨t :: l₂, hchain.suffix, t, ht, .inl (by simp)⟩
      · intro _ t' ht' _
        exact ht'
      · intro hne
        exact absurd rfl hne
      · intro c' hc'
        cases ht.symm.trans hc'
        -- the new version of the client, or the version that was shown before
        obtain hcur | hmine := hmine
        · exact (h.seen t hcur).imp_left fun hw => h.committed_ended uid true hw
        · rw [howner] at hmine
          exact .inl (by simp [ended, hmine])
      · exact h.pending_ended uid true

/-- A rollback of the holder keeps the invariant. -/
theorem Inv.rollback (h : s.Inv) {uid : Nat} (hfits : s.Fits uid .rollback) :
    ∃ s', s.step uid .rollback = .ok s' ∧ s'.Inv := by
  obtain ⟨huid, howner⟩ := hfits
  unfold step Client.rollback
  cases hstart : (s.client uid).m_start with
  | true => exact ⟨s, rfl, h⟩
  | false =>
    cases hrow : (s.client uid).hasRow with
    | false => exact ⟨_, rfl, h.ended_elsewhere uid false _ hstart hrow⟩
    | true =>
      have howner := howner hstart hrow
      obtain ⟨_, t, ht, hlive, _⟩ := h.held (howner ▸ huid)
      obtain ⟨c, l, hc, hchain, htl⟩ := h.tail ht hlive
      obtain ⟨v, hv⟩ : ∃ v, s.row.mem.get c = some v := by
        cases hchain with
        | cons hget _ => exact ⟨_, hget⟩
      obtain ⟨l, rfl⟩ : ∃ l', l = c :: l' := by
        cases hchain
        exact ⟨_, rfl⟩
      rw [if_pos rfl, Row.rollback_spec hc hv hchain]
      refine ⟨_, rfl, ?_⟩
      have hcl : c ∉ l := (List.nodup_cons.mp hchain.nodup).1
      have hgetc : (s.row.rolledBack c v l).mem.get c = some { v with next := none } := by
        rw [Row.rolledBack, Cells.get_freeAll, if_neg hcl, Cells.get_put_self]
      have hgetl : ∀ a ∈ l, (s.row.rolledBack c v l).mem.get a = none := by
        intro a ha
        rw [Row.rolledBack, Cells.get_freeAll, if_pos ha]
      constructor
      · intro hnone
        rw [show s.row.current = none from hnone] at hc
        cases hc
      · intro c' hc'
        cases hc.symm.trans hc'
        refine ⟨[c], .cons hgetc .nil, t, ht, ?_⟩
        cases htl with
        | head => exact .inl (by simp)
        | tail _ htl => exact .inr (hgetl t htl)
      · intro _ t' ht' hlive'
        cases ht.symm.trans ht'
        cases htl with
        | head => exact hc
        | tail _ htl =>
          have hlive' : ((s.row.rolledBack c v l).mem.get t).isSome := hlive'
          rw [hgetl t htl] at hlive'
          cases hlive'
      · intro hne
        exact absurd rfl hne
      · intro c' hc'
        exact (h.seen c' hc').imp_left fun hw => h.committed_ended uid false hw
      · exact h.pending_ended uid false

theorem Inv.startTrans (h : s.Inv) (uid tid : Nat) :
    ∃ s', s.step uid (.startTrans tid) = .ok s' ∧ s'.Inv := by
  refine ⟨_, rfl, h.blank, h.linked, h.idle, ?_, h.seen, h.pending⟩
  intro howner
  obtain ⟨hclient, hrest⟩ := h.held howner
  refine ⟨?_, hrest⟩
  by_cases hu : s.row.owner = uid
  · right
    subst hu
    cases hstart : (s.client s.row.owner).m_start <;> simp [Client.startTrans, hstart]
  · simpa [update_of_ne hu] using hclient

/-! ## Steps and runs -/

theorem Inv.write (h : s.Inv) {uid tid : Nat} {op : Op} {status : Status} {row : Row} (huid : uid ≠ 0)
    (hnew : s.row.mem.get op.new = none) (howner : op.Unlocks s.row uid → s.row.owner ≠ uid)
    (hwrote : Wrote s.row uid tid op status row) : (s.wrote uid op.new status row).Inv := by
  cases hwrote with
  | refused =>
    rw [wrote_failed]
    exact h
  | unlocked hreach hunknown =>
    have hzero := hreach.lockable.resolve_right (howner ⟨_, _, hreach, hunknown⟩)
    have hsame : { s.row with owner := 0 } = s.row := by rw [← hzero]
    rw [hsame, wrote_failed]
    exact h
  | first _ _ => exact h.first huid _
  | @behind _ data t d ht hd _ hlock =>
    exact h.behind { Version.allocForInsert data with prev := some t } s.row.tail huid ht hd hlock
      hnew rfl (.inl ht)
  | changed hreach _ _ =>
    exact h.behind _ _ huid hreach.tail hreach.get hreach.lockable hnew rfl (.inr rfl)

theorem Inv.shows (h : s.Inv) {uid : Nat} (hfits : s.Fits uid .select) : s.ShowsCommitted uid := by
  unfold ShowsCommitted Row.select
  cases hc : s.row.current with
  | none => exact ⟨_, none, rfl, fun v hv => nomatch hv⟩
  | some c =>
    obtain ⟨l, hchain, _⟩ := h.linked c hc
    obtain ⟨v, hv⟩ : ∃ v, s.row.mem.get c = some v := by
      cases hchain with
      | cons hget _ => exact ⟨_, hget⟩
    dsimp only
    rw [read_eq_ok.mpr ⟨rfl, hv⟩, Exec.ok_bind]
    cases hdelete : v.isDelete with
    | true => exact ⟨_, none, rfl, fun v hv => nomatch hv⟩
    | false =>
      refine ⟨_, some v, rfl, fun w hw => ?_⟩
      cases hw
      refine ⟨c, rfl, hv, fun hother => ?_⟩
      have hcommitted : s.outcome (s.writer c) = some true := by
        obtain hseen | hhead := h.seen c hc
        · exact hseen
        · exact (hfits c hhead hc).resolve_left hother
      exact ⟨hcommitted, by rw [hcommitted]; simp⟩

theorem Inv.step (h : s.Inv) {uid : Nat} {call : Call} (hallocates : s.Allocates call)
    (hfits : s.Fits uid call) : ∃ s', s.step uid call = .ok s' ∧ s'.Inv := by
  cases call with
  | write op =>
    obtain ⟨huid, hlive, hsafe, -, howner⟩ := hfits
    obtain ⟨status, row, happly, hwrote⟩ := apply_spec hlive hsafe
    exact ⟨s.wrote uid op.new status row, by rw [World.step, happly]; rfl,
      h.write huid hallocates howner hwrote⟩
  | commit => exact h.commit hfits
  | rollback => exact h.rollback hfits
  | select =>
    obtain ⟨answer, hanswer⟩ : ∃ answer, s.row.select = .ok answer := by
      obtain ⟨status, shown, hselect, _⟩ := h.shows hfits
      exact ⟨_, hselect⟩
    exact ⟨s, by rw [World.step, hanswer]; rfl, h⟩
  | startTrans tid => exact h.startTrans uid tid

theorem Run.inv {s : World} (hrun : Run s) : s.Inv := by
  induction hrun with
  | start => exact inv_start
  | step _ hallocates hfits hstep ih =>
    obtain ⟨s', hs', hinv⟩ := ih.step hallocates hfits
    rw [hs'] at hstep
    cases hstep
    exact hinv

end World

/-! ## A first insert -/

def oneColumn : Meta.TableMeta :=
  TableMeta.buildColumnOffsetList { m_columns := [{ m_columnType := .T_STRING, m_columnName := "a" }] }

def oneValue : RowData where
  meta' := oneColumn
  columns := [some [5]]
  length_eq := rfl
  ne_nil := nofun

theorem small_oneValue (r : Row) (new : Nat) : (Op.insert new oneValue).Small r :=
  show oneValue.recordSize < 2 ^ 32 by decide

def firstInsert : Call := .write (.insert 7 oneValue)

def longerValue : Call := .write (.update 8 [⟨0, some [6, 7]⟩])

end DBStream.Native.KVDB
