import DBStream.Native.Load
import DBStream.Spec.DatabaseRuns
import DBStream.Spec.RecoveryCorrect
import DBStream.Spec.SolidCorrect

/-!
# What a restart keeps

`checkFileExist` answers `-1` for a file that is missing, and `recoveryFromRedo` takes that
for a block file that is there: it removes the redo file of a block that has no block file,
and replays the others.  So every block that `load` makes from a redo file has a block file
(`load_fromIds`), and `load_keeps_blocks_iff` says when nothing is lost.
-/

namespace DBStream.Native

variable {I : IndexImpl} {Γ : MetaDataCollection I} {cfg : Config} {env : LoadIo}
  {dir : Directory}

/-! ## The scan of the redo files -/

theorem checkFileExist_neg {id : Nat} : dir.checkFileExist id < 0 ↔ id ∉ dir.ids := by
  unfold Directory.checkFileExist
  by_cases h : id ∈ dir.ids
  · simp [h]
  · simp [h]

namespace AppendingBlock

theorem recoveryFromRedo_blockID {b : AppendingBlock I} {io : RecoveryIo} {fuel : Nat}
    {res : Int × AppendingBlock I} (h : b.recoveryFromRedo Γ fuel io = .ok (some res)) :
    res.2.m_blockID = b.m_blockID := by
  unfold recoveryFromRedo at h
  simp only at h
  generalize (if 0 < b.redo.m_redoFd then b.redo.closeFile else b.redo).openRedoFile false
    b.m_minLogOffset io.append = opened at h
  generalize (if io.sized = true then
    Int.bmod (b.setRedo opened.2).redo.content.length (2 ^ 32) else -1) = size at h
  split at h
  · split at h
    · cases h
      rfl
    · split at h
      · cases h
        rfl
      · split at h
        · exact (replay_not_finished h).1.1
        · cases h
          rfl
  · cases h
    rfl

end AppendingBlock

private theorem replayRedo_blockID {id : Nat} {ret : Int} {b : AppendingBlock I}
    (h : replayRedo Γ cfg env dir id = .ok (ret, b)) : b.m_blockID = id := by
  unfold replayRedo at h
  simp only at h
  split at h
  · cases h
  · cases h
  · rename_i x hx
    cases h
    exact AppendingBlock.recoveryFromRedo_blockID hx

/-- A redo file from which a block can be made. -/
def Readable (Γ : MetaDataCollection I) (cfg : Config) (env : LoadIo) (dir : Directory)
    (id : Nat) : Prop :=
  ∃ ret b, replayRedo Γ cfg env dir id = .ok (ret, b) ∧ ret ≠ -1

/-- The redo files that end the scan: those of a block with a block file that are replayed up to an
    unfinished end, or with a fault. -/
def stopsScan (Γ : MetaDataCollection I) (cfg : Config) (env : LoadIo) (dir : Directory)
    (id : Nat) : Bool :=
  decide (id ∈ dir.ids) &&
    match replayRedo Γ cfg env dir id with
    | .error _ => true
    | .ok (ret, b) => ret = 1 || (ret ≠ -1 && !b.toSolidBlock.isOk)

/-- The redo files in front of the first one that ends the scan. -/
def reached (Γ : MetaDataCollection I) (cfg : Config) (env : LoadIo) (dir : Directory)
    (redos : List Nat) : List Nat :=
  redos.takeWhile fun id => !stopsScan Γ cfg env dir id

/-- All that a turn of the loop over the redo files can do. -/
theorem recoveryFromRedo_cases (Γ : MetaDataCollection I) (cfg : Config) (env : LoadIo)
    (dir : Directory) (id : Nat) (redos : List Nat) (scan : RedoScan) :
    (id ∉ dir.ids ∧ stopsScan Γ cfg env dir id = false ∧
      recoveryFromRedo Γ cfg env dir (id :: redos) scan =
        recoveryFromRedo Γ cfg env dir redos { scan with removed := scan.removed ++ [id] }) ∨
    (id ∈ dir.ids ∧ stopsScan Γ cfg env dir id = true ∧
      ∃ more ret, (∀ r ∈ more, r.m_blockID = id) ∧
        recoveryFromRedo Γ cfg env dir (id :: redos) scan =
          ({ scan with recoveried := scan.recoveried ++ more }, ret)) ∨
    (id ∈ dir.ids ∧ stopsScan Γ cfg env dir id = false ∧
      (recoveryFromRedo Γ cfg env dir (id :: redos) scan =
          recoveryFromRedo Γ cfg env dir redos scan ∨
        ∃ r head, r.m_blockID = id ∧ recoveryFromRedo Γ cfg env dir (id :: redos) scan =
          recoveryFromRedo Γ cfg env dir redos ⟨scan.recoveried ++ [r], scan.removed ++ [id],
            scan.written ++ [(id, head)]⟩)) := by
  by_cases hid : id ∈ dir.ids
  -- no block file of this id: the redo file is removed
  swap
  · left
    refine ⟨hid, by simp [stopsScan, hid], ?_⟩
    conv_lhs => unfold recoveryFromRedo
    rw [if_pos (checkFileExist_neg.mpr hid)]
  right
  have hexist : ¬ dir.checkFileExist id < 0 := fun h => checkFileExist_neg.mp h hid
  cases hreplay : replayRedo Γ cfg env dir id with
  -- the replay itself fails
  | error e =>
    left
    refine ⟨hid, by simp [stopsScan, hid, hreplay], [], .error e, by simp, ?_⟩
    unfold recoveryFromRedo
    rw [if_neg hexist, hreplay, List.append_nil]
  | ok x =>
    obtain ⟨ret, b⟩ := x
    have hblock := replayRedo_blockID hreplay
    -- -1: the file cannot be read and is passed over
    by_cases hfail : ret = -1
    · right
      refine ⟨hid, by simp [stopsScan, hid, hreplay, hfail], Or.inl ?_⟩
      conv_lhs => unfold recoveryFromRedo
      rw [if_neg hexist, hreplay]
      simp [hfail]
    -- 1: the file is not ended, so its block goes on and the scan stops
    by_cases hopen : ret = 1
    · left
      refine ⟨hid, by simp [stopsScan, hid, hreplay, hopen],
        [LoadedBlock.ofHead b.solidHead .redoFile], .ok 1, ?_, ?_⟩
      · intro r hr
        rw [List.mem_singleton.mp hr]
        exact hblock
      · unfold recoveryFromRedo
        rw [if_neg hexist, hreplay]
        simp [hopen]
    -- 0: an ended file is converted, written and removed
    cases hsolid : b.toSolidBlock with
    | error e =>
      left
      refine ⟨hid, by simp [stopsScan, hid, hreplay, hfail, hsolid, Except.isOk, Except.toBool],
        [], .error e, by simp, ?_⟩
      unfold recoveryFromRedo
      rw [if_neg hexist, hreplay]
      simp [hfail, hopen, hsolid]
    | ok sb =>
      right
      refine ⟨hid, by simp [stopsScan, hid, hreplay, hopen, hsolid, Except.isOk, Except.toBool],
        ?_⟩
      by_cases hwrite : env.written id = true
      · right
        refine ⟨LoadedBlock.ofHead sb.head .redoFile, sb.head, ?_, ?_⟩
        · rw [AppendingBlock.toSolidBlock_head hsolid]
          exact hblock
        · conv_lhs => unfold recoveryFromRedo
          rw [if_neg hexist, hreplay]
          simp [hfail, hopen, hsolid, hwrite]
      · left
        conv_lhs => unfold recoveryFromRedo
        rw [if_neg hexist, hreplay]
        simp [hfail, hopen, hsolid, hwrite]

/-- What the scan of `redos` from the state `scan` leaves. -/
structure Scanned (Γ : MetaDataCollection I) (cfg : Config) (env : LoadIo) (dir : Directory)
    (redos : List Nat) (scan res : RedoScan) : Prop where
  recoveried : ∀ r ∈ res.recoveried, r ∈ scan.recoveried ∨ r.m_blockID ∈ dir.ids
  written : ∀ x ∈ res.written, x ∈ scan.written ∨ x.1 ∈ dir.ids
  removed : ∀ id ∈ res.removed,
    id ∈ scan.removed ∨ id ∈ dir.ids ∨ id ∈ reached Γ cfg env dir redos
  keeps : ∀ id ∈ scan.removed, id ∈ res.removed
  removes : ∀ id ∈ reached Γ cfg env dir redos, id ∉ dir.ids → id ∈ res.removed

private theorem reached_cons_stops {id : Nat} (redos : List Nat)
    (h : stopsScan Γ cfg env dir id = true) : reached Γ cfg env dir (id :: redos) = [] := by
  simp [reached, h]

theorem reached_cons {id : Nat} (redos : List Nat) (h : stopsScan Γ cfg env dir id = false) :
    reached Γ cfg env dir (id :: redos) = id :: reached Γ cfg env dir redos := by
  simp [reached, h]

theorem Scanned.cons {id : Nat} {redos : List Nat} {scan next res : RedoScan}
    (hgo : stopsScan Γ cfg env dir id = false) (h : Scanned Γ cfg env dir redos next res)
    (hrec : ∀ r ∈ next.recoveried, r ∈ scan.recoveried ∨ r.m_blockID ∈ dir.ids)
    (hwritten : ∀ x ∈ next.written, x ∈ scan.written ∨ x.1 ∈ dir.ids)
    (hremoved : ∀ i ∈ next.removed, i ∈ scan.removed ∨ i = id)
    (hkeeps : ∀ i ∈ scan.removed, i ∈ next.removed) (hid : id ∈ dir.ids ∨ id ∈ next.removed) :
    Scanned Γ cfg env dir (id :: redos) scan res where
  recoveried := by
    intro r hr
    cases h.recoveried r hr with
    | inl hnext => exact hrec r hnext
    | inr hids => exact Or.inr hids
  written := by
    intro x hx
    cases h.written x hx with
    | inl hnext => exact hwritten x hnext
    | inr hids => exact Or.inr hids
  removed := by
    intro i hi
    rw [reached_cons redos hgo, List.mem_cons]
    rcases h.removed i hi with hnext | hids | hreached
    · cases hremoved i hnext with
      | inl hscan => exact Or.inl hscan
      | inr heq => exact Or.inr (Or.inr (Or.inl heq))
    · exact Or.inr (Or.inl hids)
    · exact Or.inr (Or.inr (Or.inr hreached))
  keeps := fun i hi => h.keeps i (hkeeps i hi)
  removes := by
    intro i hi hno
    rw [reached_cons redos hgo, List.mem_cons] at hi
    cases hi with
    | inl heq =>
      subst heq
      exact h.keeps i (hid.resolve_left hno)
    | inr hreached => exact h.removes i hreached hno

/-- What the loop has recovered when it ends or stops. -/
theorem recoveryFromRedo_scanned (Γ : MetaDataCollection I) (cfg : Config) (env : LoadIo)
    (dir : Directory) (redos : List Nat) (scan : RedoScan) :
    Scanned Γ cfg env dir redos scan (recoveryFromRedo Γ cfg env dir redos scan).1 := by
  induction redos generalizing scan with
  | nil =>
    exact ⟨fun _ h => Or.inl h, fun _ h => Or.inl h, fun _ h => Or.inl h, fun _ h => h,
      fun _ h => by cases h⟩
  | cons id redos ih =>
    -- removed without a replay, stopped here, passed over, or converted
    rcases recoveryFromRedo_cases Γ cfg env dir id redos scan with
      ⟨hid, hgo, heq⟩ | ⟨hid, hstop, more, ret, hmore, heq⟩ | ⟨hid, hgo, heq | ⟨r, head, hr, heq⟩⟩
    · rw [heq]
      apply (ih { scan with removed := scan.removed ++ [id] }).cons hgo
      · exact fun _ h => Or.inl h
      · exact fun _ h => Or.inl h
      · intro i hi
        simpa using hi
      · intro i hi
        simp [hi]
      · simp
    · rw [heq]
      refine ⟨?_, fun _ h => Or.inl h, fun _ h => Or.inl h, fun _ h => h, ?_⟩
      · intro r hr
        cases List.mem_append.mp hr with
        | inl hscan => exact Or.inl hscan
        | inr hnew =>
          right
          rw [hmore r hnew]
          exact hid
      · intro i hi
        rw [reached_cons_stops redos hstop] at hi
        cases hi
    · rw [heq]
      exact (ih scan).cons hgo (fun _ h => Or.inl h) (fun _ h => Or.inl h)
        (fun _ h => Or.inl h) (fun _ h => h) (Or.inl hid)
    · rw [heq]
      apply (ih ⟨scan.recoveried ++ [r], scan.removed ++ [id],
        scan.written ++ [(id, head)]⟩).cons hgo
      · intro r' hr'
        cases List.mem_append.mp hr' with
        | inl hscan => exact Or.inl hscan
        | inr hnew =>
          right
          rw [List.mem_singleton.mp hnew, hr]
          exact hid
      · intro x hx
        cases List.mem_append.mp hx with
        | inl hscan => exact Or.inl hscan
        | inr hnew =>
          right
          rw [List.mem_singleton.mp hnew]
          exact hid
      · intro i hi
        simpa using hi
      · intro i hi
        simp [hi]
      · exact Or.inl hid

/-! ## The chain -/

namespace LoadState

/-- Every block that comes from a redo file has a block file, in the chain or not. -/
structure FromIds (dir : Directory) (st : LoadState) : Prop where
  blocks : ∀ id b, st.m_blocks id = some b → b.origin = .redoFile → id ∈ dir.ids
  recoveried : ∀ r ∈ st.recoveried, r.m_blockID ∈ dir.ids

variable {st st' : LoadState}

theorem FromIds.set (h : FromIds dir st) {b : LoadedBlock}
    (hb : b.origin = .redoFile → b.m_blockID ∈ dir.ids) : FromIds dir (st.set b) := by
  unfold LoadState.set
  split
  · exact h
  · refine ⟨?_, h.recoveried⟩
    intro id c hc horigin
    simp only [Function.update_apply] at hc
    split at hc
    · rename_i heq
      cases hc
      rw [heq]
      exact hb horigin
    · exact h.blocks id c hc horigin

theorem FromIds.modify (h : FromIds dir st) (id : Nat) {f : LoadedBlock → LoadedBlock}
    (hf : ∀ c, (f c).origin = c.origin) : FromIds dir (st.modify id f) := by
  refine ⟨?_, h.recoveried⟩
  intro id' c hc horigin
  simp only [LoadState.modify, Function.update_apply] at hc
  split at hc
  · rename_i heq
    obtain ⟨c', hc', rfl⟩ := Option.map_eq_some_iff.mp hc
    rw [heq]
    rw [hf] at horigin
    exact h.blocks id c' hc' horigin
  · exact h.blocks id' c hc horigin

theorem FromIds.relink (h : FromIds dir st) (neighbour : Option Nat) (f : LoadedBlock → LoadedBlock)
    (hf : ∀ c, (f c).origin = c.origin) : FromIds dir (match neighbour with
    | none => st
    | some id => st.modify id f) := by
  split
  · exact h
  · exact h.modify _ hf

theorem FromIds.removeBlock (h : FromIds dir st) {id : Nat}
    (heq : st.removeBlock id = .ok st') : FromIds dir st' := by
  obtain ⟨b, -, heq⟩ := Exec.of_bind heq
  cases heq
  have hprev := h.relink b.prev (fun c => { c with prev := b.next }) fun _ => rfl
  have hboth := hprev.relink b.next (fun c => { c with prev := b.prev }) fun _ => rfl
  refine ⟨?_, hboth.recoveried⟩
  intro id' c hc horigin
  simp only [Function.update_apply] at hc
  split at hc
  · cases hc
  · exact hboth.blocks id' c hc horigin

theorem FromIds.pickBlocks {upTo : Option LoadedBlock} {rs : List LoadedBlock} {fromId : Nat}
    (h : FromIds dir st) (hrs : ∀ r ∈ rs, r.m_blockID ∈ dir.ids) :
    FromIds dir (pickBlocks upTo rs fromId st).2 := by
  induction rs generalizing fromId st with
  | nil => exact h
  | cons r rest ih =>
    unfold LoadState.pickBlocks
    split
    · split
      · apply ih
        · have hset := (h.modify fromId (f := fun c => { c with next := some r.m_blockID })
            fun _ => rfl).set (b := { r with prev := some fromId })
            fun _ => hrs r (List.mem_cons_self ..)
          exact ⟨hset.blocks, fun r' hr' => hset.recoveried r' (List.mem_filter.mp hr').1⟩
        · exact fun r' hr' => hrs r' (List.mem_cons_of_mem r hr')
      · exact h
    · exact h

theorem FromIds.pickRedo (h : FromIds dir st) (fromId : Nat) (upTo : Option LoadedBlock) :
    FromIds dir (st.pickRedo fromId upTo).2 := by
  unfold LoadState.pickRedo
  split
  · exact h
  · rename_i r rest hfilter
    apply h.pickBlocks
    intro r' hr'
    rw [← hfilter] at hr'
    exact h.recoveried r' (List.mem_filter.mp hr').1

theorem FromIds.removeAbove {bound fuel : Nat} {prevBlock : Option Nat} {x : LoadState × Nat}
    (h : FromIds dir st) (heq : removeAbove bound fuel st prevBlock = .ok x) :
    FromIds dir x.1 := by
  induction fuel generalizing st prevBlock with
  | zero => cases heq
  | succ fuel ih =>
    obtain ⟨id, -, heq⟩ := Exec.of_bind heq
    obtain ⟨b, -, heq⟩ := Exec.of_bind heq
    split at heq
    · obtain ⟨st₁, hremove, heq⟩ := Exec.of_bind heq
      exact ih (h.removeBlock hremove) heq
    · cases heq
      exact h

def Turn.state : Turn → LoadState
  | .next st => st
  | .stop st => st
  | .fail st => st

theorem FromIds.link {fuel : Nat} {b : LoadedBlock} {rest : List Nat} {turn : Turn}
    (h : FromIds dir st) (heq : st.link fuel b rest = .ok turn) : FromIds dir turn.state := by
  obtain ⟨prevBlock, -, heq⟩ := Exec.of_bind heq
  split at heq
  · cases heq
    exact h.modify _ fun _ => rfl
  · split at heq
    · obtain ⟨tmp, -, heq⟩ := Exec.of_bind heq
      generalize hpick : (if tmp = b.m_prevBlockID then (true, st)
        else st.pickRedo prevBlock (some b)) = picked at heq
      have hpicked : FromIds dir picked.2 := by
        rw [← hpick]
        split
        · exact h
        · exact h.pickRedo prevBlock (some b)
      simp only at heq
      split at heq
      · obtain ⟨⟨st₂, id⟩, hremove, heq⟩ := Exec.of_bind heq
        cases heq
        have hmodify := (hpicked.removeAbove hremove).modify id
          (f := fun c => { c with next := some b.m_blockID }) fun _ => rfl
        exact ⟨hmodify.blocks, hmodify.recoveried⟩
      · cases heq
        exact hpicked
    · have hpicked := h.pickRedo prevBlock (some b)
      simp only at heq
      split at heq
      · cases heq
        exact hpicked.modify _ fun _ => rfl
      · cases heq
        exact ⟨hpicked.blocks, hpicked.recoveried⟩

theorem FromIds.append (h : FromIds dir st) (b : LoadedBlock) {id : Nat} (hid : id ∈ dir.ids) :
    FromIds dir (st.append b id) := by
  have hset := h.set (b := { b with m_blockID := id, prev := st.prevBlock }) fun _ => hid
  exact ⟨hset.blocks, hset.recoveried⟩

theorem FromIds.loadIds {scan : RedoScan} {fuel : Nat} {ids : List Nat} {x : Bool × LoadState}
    (h : FromIds dir st) (hids : ∀ id ∈ ids, id ∈ dir.ids)
    (heq : loadIds dir scan fuel ids st = .ok x) : FromIds dir x.2 := by
  induction ids generalizing st with
  | nil =>
    cases heq
    exact h
  | cons id ids ih =>
    have hid := hids id (List.mem_cons_self ..)
    have hrest : ∀ id ∈ ids, id ∈ dir.ids := fun i hi => hids i (List.mem_cons_of_mem id hi)
    unfold LoadState.loadIds at heq
    split at heq
    · cases heq
      exact ⟨h.blocks, h.recoveried⟩
    · simp only at heq
      split at heq
      · have hfirst : FromIds dir { st with m_firstBlockId := id } := ⟨h.blocks, h.recoveried⟩
        exact ih (hfirst.append _ hid) hrest heq
      · obtain ⟨turn, hlink, heq⟩ := Exec.of_bind heq
        have hturn := h.link hlink
        cases turn with
        | next st₁ => exact ih (hturn.append _ hid) hrest heq
        | stop st₁ =>
          cases heq
          exact hturn
        | fail st₁ =>
          cases heq
          exact hturn

theorem FromIds.empty {rs : List LoadedBlock} (h : ∀ r ∈ rs, r.m_blockID ∈ dir.ids) :
    FromIds dir (empty rs) := by
  refine ⟨?_, h⟩
  intro id b hb
  cases hb

theorem FromIds.start {scan : RedoScan} (h : ∀ r ∈ scan.recoveried, r.m_blockID ∈ dir.ids) :
    FromIds dir (start dir scan) := by
  unfold LoadState.start
  split
  · exact FromIds.empty (by simp)
  · rename_i r rest hcons
    rw [hcons] at h
    split
    · have hset := (FromIds.empty fun r' hr' => h r' (List.mem_cons_of_mem r hr')).set
        fun _ => h r (List.mem_cons_self ..)
      exact ⟨hset.blocks, hset.recoveried⟩
    · exact FromIds.empty h

theorem FromIds.pickTail (h : FromIds dir st) (heq : st.pickTail dir = .ok st') :
    FromIds dir st' := by
  unfold LoadState.pickTail at heq
  split at heq
  · obtain ⟨prevBlock, -, heq⟩ := Exec.of_bind heq
    cases heq
    have hpicked := h.pickRedo prevBlock none
    exact ⟨hpicked.blocks, hpicked.recoveried⟩
  · cases heq
    exact h

theorem FromIds.nextIds (h : FromIds dir st) : FromIds dir st.nextIds.1 := by
  unfold LoadState.nextIds
  split
  · exact h
  · exact ⟨h.blocks, h.recoveried⟩

theorem FromIds.appendNext (h : FromIds dir st) (id : Nat) : FromIds dir (match st.last with
    | some b => st.modify b.m_blockID fun c => { c with next := some id }
    | none => st) := by
  split
  · exact h.modify _ fun _ => rfl
  · exact h

theorem FromIds.createCurrent (h : FromIds dir st) (recordId : Nat) :
    FromIds dir (st.createCurrent recordId) := by
  have hlinked := h.appendNext (st.m_lastBlockId + 1)
  unfold LoadState.createCurrent
  have hset := hlinked.set (b := {
    m_blockID := st.m_lastBlockId + 1
    m_prevBlockID := (st.last.map LoadedBlock.m_blockID).getD 0
    m_minRecordId := recordId
    m_recordCount := 0
    m_maxTxnId := 0
    prev := st.last.map LoadedBlock.m_blockID
    next := none
    origin := .fresh }) fun hfresh => by cases hfresh
  exact ⟨hset.blocks, hset.recoveried⟩

end LoadState

theorem load_fromIds {x : Bool × LoadState} (h : (load Γ cfg env dir).2 = .ok x) :
    LoadState.FromIds dir x.2 := by
  have hscan := recoveryFromRedo_scanned Γ cfg env dir dir.redos ⟨[], [], []⟩
  unfold load at h
  generalize recoveryFromRedo Γ cfg env dir dir.redos ⟨[], [], []⟩ = res at h hscan
  obtain ⟨scan, ret⟩ := res
  obtain ⟨-, -, h⟩ := Exec.of_bind h
  obtain ⟨⟨ok, st⟩, hids, h⟩ := Exec.of_bind h
  have hstart : LoadState.FromIds dir (LoadState.start dir scan) :=
    .start fun r hr => (hscan.recoveried r hr).resolve_left (by simp)
  have hloaded := hstart.loadIds (fun _ hid => hid) hids
  simp only at h
  split at h
  · obtain ⟨st₁, htail, h⟩ := Exec.of_bind h
    cases h
    exact (hloaded.pickTail htail).nextIds.createCurrent _
  · cases h
    exact hloaded

/-! ## What is lost -/

/-- The chain is in order: the blocks are found under their ids, and `prev` and `next` lead from a
    block to the next one in the order of the ids and back. -/
structure LoadState.Chained (st : LoadState) : Prop where
  ids : ∀ id b, st.m_blocks id = some b → b.m_blockID = id
  next : ∀ id b n, st.m_blocks id = some b → b.next = some n →
    id < n ∧ ∃ c, st.m_blocks n = some c ∧ c.prev = some id
  prev : ∀ id b p, st.m_blocks id = some b → b.prev = some p →
    p < id ∧ ∃ c, st.m_blocks p = some c ∧ c.next = some id

/-- A restart loses no block: a redo file is removed only if the block file is there or was written
    from it, and a block with nothing but a readable redo file is in the chain that is loaded. -/
structure LosesNoBlock (Γ : MetaDataCollection I) (cfg : Config) (env : LoadIo)
    (dir : Directory) : Prop where
  removed : ∀ id ∈ (load Γ cfg env dir).1.removed,
    id ∈ dir.ids ∨ id ∈ (load Γ cfg env dir).1.written.map Prod.fst
  chained : ∀ id, dir.RedoOnly id → Readable Γ cfg env dir id →
    ∃ st b, (load Γ cfg env dir).2 = .ok (true, st) ∧ st.m_blocks id = some b ∧
      b.origin = .redoFile ∧ st.Chained

/-- A restart loses no block exactly if no block of which only the redo file is left has a readable
    one, and the scan of the redo files reaches none of them. -/
theorem load_keeps_blocks_iff (Γ : MetaDataCollection I) (cfg : Config) (env : LoadIo)
    (dir : Directory) :
    LosesNoBlock Γ cfg env dir ↔
      ∀ id, dir.RedoOnly id →
        ¬ Readable Γ cfg env dir id ∧ id ∉ reached Γ cfg env dir dir.redos := by
  have hscan := recoveryFromRedo_scanned Γ cfg env dir dir.redos ⟨[], [], []⟩
  constructor
  · intro h id hid
    constructor
    · intro hread
      obtain ⟨st, b, hload, hb, horigin, -⟩ := h.chained id hid hread
      exact hid.2 ((load_fromIds hload).blocks id b hb horigin)
    · intro hreached
      cases h.removed id (hscan.removes id hreached hid.2) with
      | inl hids => exact hid.2 hids
      | inr hwritten =>
        -- block files are written only for blocks that have one
        obtain ⟨x, hx, rfl⟩ := List.mem_map.mp hwritten
        exact hid.2 ((hscan.written x hx).resolve_left (by simp))
  · intro h
    refine ⟨?_, fun id hid hread => absurd hread (h id hid).1⟩
    intro id hremoved
    rcases hscan.removed id hremoved with hnone | hids | hreached
    · cases hnone
    · exact Or.inl hids
    · by_cases hids : id ∈ dir.ids
      · exact Or.inl hids
      · have honly : dir.RedoOnly id := ⟨List.takeWhile_subset _ hreached, hids⟩
        exact absurd hreached (h id honly).2

def loneRedo : Directory where
  ids := []
  redos := [1]
  head := fun _ => none
  redo := fun _ => LE.bytes 8 0 ++ AppendingBlock.shortDdl.stamped 0
  ids_sorted := List.Pairwise.nil
  redos_sorted := List.pairwise_singleton ..
  ids_lt := by simp
  redos_lt := by simp

def quietLoad : LoadIo where
  recovery := fun _ => AppendingBlock.quietRecovery
  written := fun _ => true
  fuel := 10

/-- The only copy of a record is removed at the restart. -/
theorem load_removes_lone_redo :
    loneRedo.RedoOnly 1 ∧ Readable noTables Database.oneMbConfig quietLoad loneRedo 1 ∧
    (load noTables Database.oneMbConfig quietLoad loneRedo).1.removed = [1] ∧
    ¬ LosesNoBlock noTables Database.oneMbConfig quietLoad loneRedo := by
  refine ⟨⟨by decide, by decide⟩, ⟨1, _, rfl, by decide⟩, rfl, ?_⟩
  intro h
  have hremoved := h.removed 1 (List.mem_singleton.mpr rfl)
  cases hremoved with
  | inl hids => cases hids
  | inr hwritten => cases hwritten

end DBStream.Native
