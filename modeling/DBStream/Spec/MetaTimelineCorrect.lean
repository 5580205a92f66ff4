import DBStream.Native.MetaDataCollection

/-!
# A timeline as a map with versions

A timeline that was only put to is the list of its entries, newest first.  What it should answer
for a checkpoint is the first entry there that does not start behind it (`asOf`).  `get` asks the
newest version for that, but the others whether they start before the checkpoint.
-/

namespace DBStream.Native.Meta

variable {T : Type}

/-! ## Histories -/

/-- A call that puts a version. -/
inductive TimelineCall (T : Type) where
  | put (meta' : Option T) (originCheckPoint : Nat)
  | disableCurrent (originCheckPoint : Nat)

namespace TimelineCall

def checkpoint : TimelineCall T → Nat
  | put _ cp => cp
  | disableCurrent cp => cp

def value : TimelineCall T → Option T
  | put m _ => m
  | disableCurrent _ => none

end TimelineCall

/-- The meta of the last entry whose checkpoint is not above `cp`; the entries are given newest
    first. -/
def asOf (entries : List (Nat × Option T)) (cp : Nat) : Option T :=
  (entries.find? fun e => e.1 ≤ cp).bind Prod.snd

namespace MetaTimeline

variable [HasMetaId T]

def call (t : MetaTimeline T) : TimelineCall T → Exec (MetaTimeline T)
  | .put m cp => do
    let (_, _, t) ← t.put m cp
    return t
  | .disableCurrent cp => do
    let (_, t) ← t.disableCurrent cp
    return t

def run (t : MetaTimeline T) : List (TimelineCall T) → Exec (MetaTimeline T)
  | [] => .ok t
  | c :: cs => do
    let t ← t.call c
    run t cs

/-- The entries a history puts in front of others: each meta that is not null gets the next
    version of the table. -/
def entriesFrom (id version : Nat) (entries : List (Nat × Option T)) :
    List (TimelineCall T) → List (Nat × Option T)
  | [] => entries
  | c :: cs =>
    match c.value with
    | none => entriesFrom id version ((c.checkpoint, none) :: entries) cs
    | some m =>
      entriesFrom id ((version + 1) % 2 ^ 16)
        ((c.checkpoint, some (setId m (genTableId id version))) :: entries) cs

/-- The entries of a history, newest first. -/
def entriesOf (id : Nat) (calls : List (TimelineCall T)) : List (Nat × Option T) :=
  entriesFrom id 0 [] calls

end MetaTimeline

namespace MetaInfo

/-- The versions of some entries, each linked to those behind it. -/
def ofEntries : List (Nat × Option T) → MetaInfo T
  | [] => null
  | (startPos, m) :: rest => version m startPos (ofEntries rest)

private theorem findBefore_ofEntries (cp : Nat) (entries : List (Nat × Option T)) :
    (ofEntries entries).findBefore cp = .ok ((entries.find? fun e => e.1 < cp).bind Prod.snd) := by
  induction entries with
  | nil => rfl
  | cons e rest ih =>
    simp only [ofEntries, findBefore, ih]
    split
    · rename_i hlt
      simp [hlt]
    · rename_i hlt
      simp [hlt]

end MetaInfo

/-! ## What a history leaves -/

namespace MetaTimeline

variable [HasMetaId T] {t : MetaTimeline T} {entries : List (Nat × Option T)} {id cp : Nat}

/-- A timeline of a table that has the given entries and the given version next. -/
structure Has (t : MetaTimeline T) (id version : Nat) (entries : List (Nat × Option T)) : Prop where
  m_current : t.m_current = MetaInfo.ofEntries entries
  m_id : t.m_id = id
  m_version : t.m_version = version

omit [HasMetaId T] in
private theorem has_create (id : Nat) : (create id : MetaTimeline T).Has id 0 [] := ⟨rfl, rfl, rfl⟩

omit [HasMetaId T] in
theorem Has.link {version : Nat} (h : t.Has id version entries) (m : Option T)
    (hcp : ∀ e ∈ entries, e.1 < cp) :
    t.link m cp =
      .ok (0, m, { t with m_current := MetaInfo.ofEntries ((cp, m) :: entries) }) := by
  unfold MetaTimeline.link
  rw [h.m_current]
  cases entries with
  | nil => rfl
  | cons e rest =>
    obtain ⟨startPos, m'⟩ := e
    have hlt : startPos < cp := hcp (startPos, m') (by simp)
    simp [MetaInfo.ofEntries, Nat.not_le.mpr hlt]

theorem Has.put_none {version : Nat} (h : t.Has id version entries)
    (hcp : ∀ e ∈ entries, e.1 < cp) :
    ∃ t', t.put none cp = .ok (0, none, t') ∧ t'.Has id version ((cp, none) :: entries) := by
  refine ⟨_, h.link none hcp, rfl, h.m_id, h.m_version⟩

theorem Has.put_some {version : Nat} (h : t.Has id version entries) (m : T)
    (hcp : ∀ e ∈ entries, e.1 < cp) :
    ∃ t', t.put (some m) cp = .ok (0, some (setId m (genTableId id version)), t') ∧
      t'.Has id ((version + 1) % 2 ^ 16)
        ((cp, some (setId m (genTableId id version))) :: entries) := by
  obtain ⟨hcurrent, rfl, rfl⟩ := h
  have hassigned : ({ t with m_version := (t.m_version + 1) % 2 ^ 16 } : MetaTimeline T).Has
      t.m_id ((t.m_version + 1) % 2 ^ 16) entries := ⟨hcurrent, rfl, rfl⟩
  exact ⟨_, hassigned.link _ hcp, rfl, rfl, rfl⟩

/-- Calls with increasing checkpoints, behind the entries that are there. -/
theorem Has.run {version : Nat} {calls : List (TimelineCall T)} (h : t.Has id version entries)
    (hinc : (calls.map TimelineCall.checkpoint).Pairwise (· < ·))
    (hcp : ∀ e ∈ entries, ∀ c ∈ calls, e.1 < c.checkpoint) :
    ∃ t' version', t.run calls = .ok t' ∧
      t'.Has id version' (entriesFrom id version entries calls) := by
  induction calls generalizing t version entries with
  | nil => exact ⟨t, version, rfl, h⟩
  | cons c cs ih =>
    obtain ⟨hc, hcs⟩ := List.pairwise_cons.mp hinc
    have hnew : ∀ e ∈ entries, e.1 < c.checkpoint := fun e he => hcp e he c (by simp)
    -- the entry that is put starts before the calls that follow
    have hrest : ∀ m, ∀ e ∈ (c.checkpoint, m) :: entries, ∀ d ∈ cs, e.1 < d.checkpoint := by
      intro m e he d hd
      cases List.mem_cons.mp he with
      | inl heq =>
        rw [heq]
        exact hc d.checkpoint (List.mem_map_of_mem hd)
      | inr hmem => exact hcp e hmem d (List.mem_cons_of_mem _ hd)
    cases c with
    | disableCurrent cp =>
      obtain ⟨t', hput, ht'⟩ := h.put_none hnew
      obtain ⟨t'', v'', hrun, hhas⟩ := ih ht' hcs (hrest none)
      refine ⟨t'', v'', ?_, hhas⟩
      simp only [MetaTimeline.run, call, disableCurrent, TimelineCall.checkpoint] at hput ⊢
      simp [hput, hrun]
    | put m cp =>
      cases m with
      | none =>
        obtain ⟨t', hput, ht'⟩ := h.put_none hnew
        obtain ⟨t'', v'', hrun, hhas⟩ := ih ht' hcs (hrest none)
        refine ⟨t'', v'', ?_, hhas⟩
        simp only [MetaTimeline.run, call, TimelineCall.checkpoint] at hput ⊢
        simp [hput, hrun]
      | some m =>
        obtain ⟨t', hput, ht'⟩ := h.put_some m hnew
        obtain ⟨t'', v'', hrun, hhas⟩ := ih ht' hcs (hrest _)
        refine ⟨t'', v'', ?_, hhas⟩
        simp only [MetaTimeline.run, call, TimelineCall.checkpoint] at hput ⊢
        simp [hput, hrun]

omit [HasMetaId T] in
theorem Has.get_nil {version : Nat} (h : t.Has id version []) (cp : Nat) :
    t.get cp = .error .nullDeref := by
  unfold MetaTimeline.get
  rw [h.m_current]
  rfl

omit [HasMetaId T] in
theorem Has.get_cons {version : Nat} {e : Nat × Option T} {rest : List (Nat × Option T)}
    (h : t.Has id version (e :: rest)) (cp : Nat) :
    t.get cp = .ok (if e.1 ≤ cp then e.2
      else (rest.find? fun e => e.1 < cp).bind Prod.snd) := by
  unfold MetaTimeline.get
  rw [h.m_current]
  simp only [MetaInfo.ofEntries, MetaInfo.findBefore_ofEntries]
  split <;> rfl

theorem entriesFrom_sorted {version : Nat} {calls : List (TimelineCall T)}
    (h : entries.Pairwise fun a b => b.1 < a.1)
    (hinc : (calls.map TimelineCall.checkpoint).Pairwise (· < ·))
    (hcp : ∀ e ∈ entries, ∀ c ∈ calls, e.1 < c.checkpoint) :
    (entriesFrom id version entries calls).Pairwise fun a b => b.1 < a.1 := by
  induction calls generalizing version entries with
  | nil => exact h
  | cons c cs ih =>
    obtain ⟨hc, hcs⟩ := List.pairwise_cons.mp hinc
    have hcons : ∀ m, ((c.checkpoint, m) :: entries).Pairwise fun a b => b.1 < a.1 := fun m =>
      List.pairwise_cons.mpr ⟨fun e he => hcp e he c (by simp), h⟩
    have hrest : ∀ m, ∀ e ∈ (c.checkpoint, m) :: entries, ∀ d ∈ cs, e.1 < d.checkpoint := by
      intro m e he d hd
      cases List.mem_cons.mp he with
      | inl heq =>
        rw [heq]
        exact hc d.checkpoint (List.mem_map_of_mem hd)
      | inr hmem => exact hcp e hmem d (List.mem_cons_of_mem _ hd)
    simp only [entriesFrom]
    split
    · exact ih (hcons _) hcs (hrest _)
    · exact ih (hcons _) hcs (hrest _)

private theorem length_entriesFrom (id version : Nat) (entries : List (Nat × Option T))
    (calls : List (TimelineCall T)) :
    (entriesFrom id version entries calls).length = entries.length + calls.length := by
  induction calls generalizing version entries with
  | nil => rfl
  | cons c cs ih =>
    simp only [entriesFrom]
    split
    · rw [ih]
      simp
      omega
    · rw [ih]
      simp
      omega

end MetaTimeline

/-! ## Before a checkpoint and as of it -/

section

variable {entries newer older : List (Nat × Option T)} {cp : Nat} {m : Option T}

theorem before_eq_asOf (h : ∀ e ∈ entries, e.1 ≠ cp) :
    (entries.find? fun e => e.1 < cp).bind Prod.snd = asOf entries cp := by
  congr 1
  induction entries with
  | nil => rfl
  | cons e rest ih =>
    have hne : e.1 ≠ cp := h e (by simp)
    have hiff : decide (e.1 < cp) = decide (e.1 ≤ cp) := by
      simp only [decide_eq_decide]
      omega
    simp only [List.find?_cons, hiff, ih fun e he => h e (List.mem_cons_of_mem _ he)]

theorem find?_skip {p : Nat × Option T → Bool} {e : Nat × Option T}
    (h : ∀ e ∈ newer, p e = false) (he : p e = true) :
    (newer ++ e :: older).find? p = some e := by
  rw [List.find?_append, List.find?_eq_none.mpr (fun e he => by simp [h e he]),
    Option.none_or, List.find?_cons_of_pos he]

theorem asOf_split (h : (newer ++ (cp, m) :: older).Pairwise fun a b => b.1 < a.1) :
    asOf (newer ++ (cp, m) :: older) cp = m := by
  have hnewer := (List.pairwise_append.mp h).2.2
  unfold asOf
  rw [find?_skip (fun e he => by
    have := hnewer e he (cp, m) (by simp)
    simpa using this) (by simp)]
  rfl

theorem before_split (h : (newer ++ (cp, m) :: older).Pairwise fun a b => b.1 < a.1) :
    ((newer ++ (cp, m) :: older).find? fun e => e.1 < cp).bind Prod.snd =
      older.head?.bind Prod.snd := by
  have hnewer := (List.pairwise_append.mp h).2.2
  have hskip : ∀ e ∈ newer ++ [(cp, m)], decide (e.1 < cp) = false := by
    intro e he
    simp only [decide_eq_false_iff_not, Nat.not_lt]
    cases List.mem_append.mp he with
    | inl hmem => exact Nat.le_of_lt (hnewer e hmem (cp, m) (by simp))
    | inr hmem =>
      rw [List.mem_singleton.mp hmem]
  cases older with
  | nil =>
    rw [List.find?_eq_none.mpr fun e he => by simp only [hskip e he, Bool.false_eq_true, not_false_eq_true]]
    rfl
  | cons e rest =>
    have hlt : e.1 < cp := by
      have hright := (List.pairwise_append.mp h).2.1
      exact (List.pairwise_cons.mp hright).1 e (by simp)
    rw [show newer ++ (cp, m) :: e :: rest = (newer ++ [(cp, m)]) ++ e :: rest by simp,
      find?_skip hskip (by simpa using hlt)]
    rfl

/-- The entry that starts at the checkpoint, if it has newer ones in front of it, is the same as the
    entry behind it. -/
def OlderAgrees (entries : List (Nat × Option T)) (cp : Nat) : Prop :=
  ∀ newer m older, entries = newer ++ (cp, m) :: older → newer ≠ [] →
    m = older.head?.bind Prod.snd

/-- Behind the newest version, the answer before the checkpoint is the one as of it exactly when no
    version that starts there makes a difference. -/
theorem before_eq_asOf_iff {e : Nat × Option T} {rest : List (Nat × Option T)}
    (h : (e :: rest).Pairwise fun a b => b.1 < a.1) (he : cp < e.1) :
    (rest.find? fun e => e.1 < cp).bind Prod.snd = asOf (e :: rest) cp ↔
      OlderAgrees (e :: rest) cp := by
  have hrest := (List.pairwise_cons.mp h).2
  have hasOf : asOf (e :: rest) cp = asOf rest cp := by
    unfold asOf
    rw [List.find?_cons_of_neg (by simpa using he)]
  rw [hasOf]
  by_cases hmem : ∃ m, (cp, m) ∈ rest
  · obtain ⟨m, hm⟩ := hmem
    obtain ⟨newer, older, rfl⟩ := List.append_of_mem hm
    rw [asOf_split hrest, before_split hrest]
    constructor
    · intro heq newer' m' older' hsplit _
      -- the checkpoints are distinct, so it is the same entry
      have hsame := before_split (hsplit ▸ h)
      have hval := asOf_split (hsplit ▸ h)
      rw [← hsplit] at hsame hval
      rw [hasOf, asOf_split hrest] at hval
      rw [List.find?_cons_of_neg (by simp; omega), before_split hrest] at hsame
      rw [← hval, ← hsame, heq]
    · intro hagrees
      exact (hagrees (e :: newer) m older rfl (by simp)).symm
  · have hne : ∀ x ∈ rest, x.1 ≠ cp := fun x hx heq => hmem ⟨x.2, heq ▸ hx⟩
    refine iff_of_true (before_eq_asOf hne) ?_
    intro newer m older hsplit hnewer
    obtain ⟨x, newer, rfl⟩ := List.exists_cons_of_ne_nil hnewer
    obtain ⟨_, hrest'⟩ := List.cons.inj hsplit
    exact absurd rfl (hne (cp, m) (hrest' ▸ by simp))

end

/-! ## `get` -/

namespace MetaTimeline

variable [HasMetaId T]

/-- `get` gives the meta of the last put whose checkpoint is not above `cp` exactly when there is a
    put at all and `cp` is not the start of an older version that differs from the one before it. -/
theorem get_eq_asOf_iff (id : Nat) (calls : List (TimelineCall T))
    (hinc : (calls.map TimelineCall.checkpoint).Pairwise (· < ·)) (cp : Nat) :
    (∃ t, (create id : MetaTimeline T).run calls = .ok t ∧
      t.get cp = .ok (asOf (entriesOf id calls) cp)) ↔
    calls ≠ [] ∧ OlderAgrees (entriesOf id calls) cp := by
  obtain ⟨t, version, hrun, hhas⟩ := (has_create (T := T) id).run hinc (by simp)
  have hsorted : (entriesOf id calls).Pairwise fun a b => b.1 < a.1 :=
    entriesFrom_sorted List.Pairwise.nil hinc (by simp)
  have hlen : (entriesOf id calls).length = calls.length := by
    rw [entriesOf, length_entriesFrom]
    simp
  have hiff : (∃ t, (create id : MetaTimeline T).run calls = .ok t ∧
      t.get cp = .ok (asOf (entriesOf id calls) cp)) ↔
      t.get cp = .ok (asOf (entriesOf id calls) cp) := by
    rw [hrun]
    simp
  rw [hiff]
  change t.Has id version (entriesOf id calls) at hhas
  generalize entriesOf id calls = entries at hhas hsorted hlen
  cases entries with
  | nil =>
    -- no put: `m_current` is null
    have hnil : calls = [] := List.eq_nil_of_length_eq_zero hlen.symm
    simp [hhas.get_nil, hnil]
  | cons e rest =>
    have hne : calls ≠ [] := by
      rintro rfl
      cases hlen
    rw [hhas.get_cons, Except.ok.injEq]
    by_cases he : e.1 ≤ cp
    · -- the newest version is in force
      have hasOf : asOf (e :: rest) cp = e.2 := by
        unfold asOf
        rw [List.find?_cons_of_pos (by simpa using he)]
        rfl
      rw [if_pos he, hasOf]
      refine iff_of_true rfl ⟨hne, ?_⟩
      intro newer m older hsplit hnewer
      obtain ⟨x, newer, rfl⟩ := List.exists_cons_of_ne_nil hnewer
      obtain ⟨rfl, hrest⟩ := List.cons.inj hsplit
      have := (List.pairwise_cons.mp hsorted).1 (cp, m) (hrest ▸ by simp)
      omega
    · rw [if_neg he, before_eq_asOf_iff hsorted (by omega)]
      simp [hne]

def droppedTable : List (TimelineCall TableMeta) := [.put (some {}) 10, .disableCurrent 20]

theorem get_eq_asOf_dropped :
    (∃ t, (create 1 : MetaTimeline TableMeta).run droppedTable = .ok t ∧
      t.get 15 = .ok (asOf (entriesOf 1 droppedTable) 15)) :=
  (get_eq_asOf_iff 1 droppedTable (by decide) 15).mpr ⟨by simp [droppedTable], by
    intro newer m older hsplit hnewer
    have hmem : (15, m) ∈ entriesOf 1 droppedTable := hsplit ▸ by simp
    simp [droppedTable, entriesOf, entriesFrom, TimelineCall.value,
      TimelineCall.checkpoint] at hmem⟩

/-- The table put at 10 is not found there once a newer version exists. -/
theorem get_misses_start :
    ¬∃ t, (create 1 : MetaTimeline TableMeta).run droppedTable = .ok t ∧
      t.get 10 = .ok (asOf (entriesOf 1 droppedTable) 10) := by
  rintro ⟨t, hrun, hget⟩
  cases hrun
  revert hget
  decide

end MetaTimeline

end DBStream.Native.Meta
