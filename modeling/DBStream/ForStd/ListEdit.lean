import Mathlib.Data.List.Perm.Basic

/-!
# Edits of lists

An element of a list is inserted or erased, or moved with another one in its stead.  `place` says
where each position goes, and `track` follows the elements themselves: what is at a position is
afterwards at the place of the position.
-/

/-- A change of one place of a list. -/
inductive ListEdit where
  | keep
  | insert (i : Nat)
  | erase (i : Nat)
  | move (s d : Nat)
  deriving DecidableEq

namespace ListEdit

/-- The edit is one of a list of length `n`. -/
def Fits : ListEdit → Nat → Prop
  | keep, _ => True
  | insert i, n => i ≤ n
  | erase i, n => i < n
  | move s d, n => s < n ∧ d < n

/-- Where a position goes. -/
def place : ListEdit → Nat → Option Nat
  | keep, p => some p
  | insert i, p => some (if p < i then p else p + 1)
  | erase i, p => if p < i then some p else if p = i then none else some (p - 1)
  | move s d, p =>
    some (if p = s then d
      else if d ≤ p ∧ p < s then p + 1
      else if s < p ∧ p ≤ d then p - 1
      else p)

/-- The element at a position is replaced. -/
def replaces : ListEdit → Nat → Bool
  | move s _, p => p = s
  | _, _ => false

variable {α : Type}

/-- Edit a list, with `a` as the element that is inserted or put in the stead of the one moved. -/
def apply (e : ListEdit) (a : α) (l : List α) : List α :=
  match e with
  | keep => l
  | insert i => l.insertIdx i a
  | erase i => l.eraseIdx i
  | move s d => (l.eraseIdx s).insertIdx d a

/-- Edit a list, with the element that is moved itself. -/
def track (e : ListEdit) (fresh : α) (l : List α) : List α :=
  match e with
  | move s _ => e.apply (l.getD s fresh) l
  | _ => e.apply fresh l

variable {e : ListEdit} {l : List α} {a fresh x : α} {p q : Nat}

theorem place_injective {p' : Nat} (h : e.place p = some q) (h' : e.place p' = some q) : p = p' := by
  cases e with
  | keep =>
    cases h
    cases h'
    rfl
  | insert i =>
    simp only [place, Option.some.injEq] at h h'
    split at h <;> split at h' <;> omega
  | erase i =>
    simp only [place] at h h'
    grind
  | move s d =>
    simp only [place, Option.some.injEq] at h h'
    grind

theorem exists_place (hfits : e.Fits l.length) (hq : q < (e.apply a l).length) :
    (∃ p < l.length, e.place p = some q) ∨ e = .insert q := by
  cases e with
  | keep => exact .inl ⟨q, hq, rfl⟩
  | insert i =>
    replace hfits : i ≤ l.length := hfits
    rw [apply, List.length_insertIdx_of_le_length hfits] at hq
    obtain hlt | rfl | hgt := Nat.lt_trichotomy q i
    · exact .inl ⟨q, by omega, by simp [place, hlt]⟩
    · exact .inr rfl
    · refine .inl ⟨q - 1, by omega, ?_⟩
      rw [place, if_neg (by omega), Nat.sub_add_cancel (by omega)]
  | erase i =>
    rw [apply, List.length_eraseIdx_of_lt hfits] at hq
    obtain hlt | hge := Nat.lt_or_ge q i
    · exact .inl ⟨q, by omega, by rw [place, if_pos hlt]⟩
    · exact .inl ⟨q + 1, by omega, by rw [place, if_neg (by omega), if_neg (by omega), Nat.add_sub_cancel]⟩
  | move s d =>
    obtain ⟨hs, hd⟩ := hfits
    rw [apply, List.length_insertIdx_of_le_length (by rw [List.length_eraseIdx_of_lt hs]; omega),
      List.length_eraseIdx_of_lt hs] at hq
    refine .inl ?_
    by_cases hqd : q = d
    · exact ⟨s, hs, by rw [place, if_pos rfl, hqd]⟩
    · by_cases hup : d < q ∧ q ≤ s
      · exact ⟨q - 1, by omega, by simp only [place]; grind⟩
      · by_cases hdown : s ≤ q ∧ q < d
        · exact ⟨q + 1, by omega, by simp only [place]; grind⟩
        · exact ⟨q, by omega, by simp only [place]; grind⟩
theorem map_apply {β : Type} (f : α → β) : (e.apply a l).map f = e.apply (f a) (l.map f) := by
  cases e <;> simp [apply, List.map_insertIdx, List.eraseIdx_map]

private theorem getElem?_move {s d : Nat} (hs : s < l.length) (hd : d < l.length)
    (hp : (move s d).place p = some q) :
    ((move s d).apply a l)[q]? = if p = s then some a else l[p]? := by
  have hlen : (l.eraseIdx s).length = l.length - 1 := List.length_eraseIdx_of_lt hs
  simp only [place, Option.some.injEq] at hp
  subst hp
  by_cases hps : p = s
  · rw [if_pos hps, if_pos hps]
    exact (List.getElem?_insertIdx_self).trans (if_pos (by omega))
  · rw [if_neg hps, if_neg hps, apply, List.getElem?_insertIdx, List.getElem?_eraseIdx,
      List.getElem?_eraseIdx]
    -- on which side of both places the position is
    grind

theorem getElem?_apply (hfits : e.Fits l.length) (hp : e.place p = some q) :
    (e.apply a l)[q]? = if e.replaces p then some a else l[p]? := by
  cases e with
  | keep =>
    cases hp
    rfl
  | insert i =>
    cases hp
    simp only [apply, replaces, Bool.false_eq_true, if_false]
    by_cases hpi : p < i
    · rw [if_pos hpi, List.getElem?_insertIdx_of_lt hpi]
    · rw [if_neg hpi, List.getElem?_insertIdx_of_gt (by omega), Nat.add_sub_cancel]
  | erase i =>
    simp only [apply, replaces, Bool.false_eq_true, if_false, List.getElem?_eraseIdx, place] at hp ⊢
    grind
  | move s d =>
    simp only [replaces, decide_eq_true_eq]
    exact getElem?_move hfits.1 hfits.2 hp

theorem getElem?_track (hfits : e.Fits l.length) (hp : e.place p = some q) :
    (e.track fresh l)[q]? = l[p]? := by
  cases e with
  | move s d =>
    rw [track, getElem?_apply hfits hp]
    by_cases hps : p = s
    · subst hps
      simp [replaces, List.getElem?_eq_getElem hfits.1]
    · simp [replaces, hps]
  | keep =>
    cases hp
    rfl
  | insert i => exact getElem?_apply hfits hp
  | erase i => exact getElem?_apply (a := fresh) hfits hp

theorem track_perm_of_move {s d : Nat} (hs : s < l.length) (hd : d < l.length) :
    ((move s d).track fresh l).Perm l := by
  have hget : l.getD s fresh = l[s] := by simp [List.getElem?_eq_getElem hs]
  have hlen : (l.eraseIdx s).length = l.length - 1 := List.length_eraseIdx_of_lt hs
  show ((l.eraseIdx s).insertIdx d (l.getD s fresh)).Perm l
  rw [hget]
  exact (List.perm_insertIdx _ _ (by omega)).trans (List.getElem_cons_eraseIdx_perm hs)

theorem mem_of_mem_track (hfits : e.Fits l.length) (hx : x ∈ e.track fresh l) : x ∈ l ∨ x = fresh := by
  cases e with
  | keep => exact .inl hx
  | insert i => exact ((List.mem_insertIdx hfits).mp hx).symm
  | erase i => exact .inl (List.mem_of_mem_eraseIdx hx)
  | move s d => exact .inl ((track_perm_of_move hfits.1 hfits.2).mem_iff.mp hx)

theorem not_mem_track (hdistinct : l.Nodup) (hx : l[p]? = some x) (hp : e.place p = none) :
    x ∉ e.track fresh l := by
  cases e with
  | erase i =>
    have hpi : p = i := by
      simp only [place] at hp
      grind
    subst hpi
    intro hmem
    obtain ⟨j, hj, hxj⟩ := List.mem_eraseIdx_iff_getElem?.mp hmem
    obtain ⟨hlt, -⟩ := List.getElem?_eq_some_iff.mp hxj
    exact hj ((List.getElem?_inj hlt hdistinct).mp (hxj.trans hx.symm))
  | keep => cases hp
  | insert i => cases hp
  | move s d => cases hp

theorem nodup_track (hfits : e.Fits l.length) (hdistinct : l.Nodup) (hfresh : fresh ∉ l) :
    (e.track fresh l).Nodup := by
  cases e with
  | keep => exact hdistinct
  | insert i => exact (List.perm_insertIdx _ _ hfits).nodup_iff.mpr (List.nodup_cons.mpr ⟨hfresh, hdistinct⟩)
  | erase i => exact hdistinct.eraseIdx i
  | move s d => exact (track_perm_of_move hfits.1 hfits.2).nodup_iff.mpr hdistinct

theorem length_track {β : Type} {l' : List β} {b : β} (h : l.length = l'.length) :
    (e.track fresh l).length = (e.apply b l').length := by
  cases e <;> simp [track, apply, List.length_insertIdx, List.length_eraseIdx, h]

end ListEdit

theorem List.Nodup.map_replace {α β : Type} {f : α → β} {l l' : List α} {i : Nat} {a b : α}
    (hnodup : (l.map f).Nodup) (ha : l[i]? = some a) (hperm : l'.Perm (b :: l.eraseIdx i))
    (hb : f b = f a ∨ f b ∉ l.map f) : (l'.map f).Nodup := by
  obtain ⟨hi, rfl⟩ := List.getElem?_eq_some_iff.mp ha
  have hperm' := (List.getElem_cons_eraseIdx_perm hi).symm
  rw [(hperm'.map f).nodup_iff, List.map_cons, List.nodup_cons] at hnodup
  rw [(hperm.map f).nodup_iff, List.map_cons, List.nodup_cons]
  refine ⟨fun hmem => ?_, hnodup.2⟩
  rcases hb with hsame | hnew
  · exact hnodup.1 (hsame ▸ hmem)
  · obtain ⟨c, hc, heq⟩ := List.mem_map.mp hmem
    exact hnew (List.mem_map.mpr ⟨c, List.mem_of_mem_eraseIdx hc, heq⟩)

theorem List.Forall₂.filterMap_filter {α β γ : Type} {R : α → β → Prop} {S : γ → β → Prop}
    {f : α → Option γ} {p : β → Bool} {as : List α} {bs : List β} (h : List.Forall₂ R as bs)
    (hsome : ∀ a b c, R a b → f a = some c → p b = true ∧ S c b)
    (hnone : ∀ a b, R a b → f a = none → p b = false) :
    List.Forall₂ S (as.filterMap f) (bs.filter p) := by
  induction h with
  | nil => exact .nil
  | cons hab _ ih =>
    cases hf : f _ with
    | none =>
      rw [List.filterMap_cons_none hf, List.filter_cons_of_neg (by simp [hnone _ _ hab hf])]
      exact ih
    | some c =>
      obtain ⟨hp, hc⟩ := hsome _ _ c hab hf
      rw [List.filterMap_cons_some hf, List.filter_cons_of_pos hp]
      exact .cons hc ih

theorem List.forall₂_of_mapM_eq_some {α β : Type} {f : α → Option β} {as : List α} {bs : List β}
    (h : as.mapM f = some bs) : List.Forall₂ (fun a b => f a = some b) as bs := by
  induction as generalizing bs with
  | nil =>
    cases h
    exact .nil
  | cons a as ih =>
    rw [List.mapM_cons] at h
    obtain ⟨b, hb, h⟩ := Option.bind_eq_some_iff.mp h
    obtain ⟨bs', hbs, h⟩ := Option.bind_eq_some_iff.mp h
    cases h
    exact .cons hb (ih hbs)
