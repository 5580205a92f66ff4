import Mathlib.Algebra.GroupWithZero.Nat
import Mathlib.Data.List.Perm.Subperm
import Mathlib.Order.Lattice

/-!
# Events grouped by key

A list of events, each a value under a key, is kept as a list of groups: one for every key that
has come, in increasing order of a rank of the keys, with the values of the key in the order in
which they came.  `add` is one more event, and `Groups` says what the list is for.
-/

namespace Grouping

variable {K V R : Type} [LinearOrder R] (rank : K → R)

/-- The group is for a key of smaller rank. -/
def before (k : K) (g : K × List V) : Bool := rank g.1 < rank k

/-- One more value under a key. -/
def add (k : K) (v : V) : List (K × List V) → List (K × List V)
  | [] => [(k, [v])]
  | g :: gs =>
    if rank g.1 < rank k then g :: add k v gs
    else if rank k < rank g.1 then (k, [v]) :: g :: gs
    else (g.1, g.2 ++ [v]) :: gs

/-- Whether the key has no group yet. -/
def isNew (k : K) : List (K × List V) → Bool
  | [] => true
  | g :: gs => if rank g.1 < rank k then isNew k gs else rank k < rank g.1

/-- Ranks increase strictly. -/
def Sorted (gs : List (K × List V)) : Prop := gs.Pairwise fun a b => rank a.1 < rank b.1

/-- The values that came under a key. -/
def valuesOf [DecidableEq K] (events : List (K × V)) (k : K) : List V :=
  (events.filter fun e => e.1 = k).map Prod.snd

/-- The groups of a list of events. -/
structure Groups [DecidableEq K] (events : List (K × V)) (gs : List (K × List V)) : Prop where
  sorted : Sorted rank gs
  values : ∀ g ∈ gs, g.2 = valuesOf events g.1
  keys : ∀ k, (∃ g ∈ gs, g.1 = k) ↔ ∃ e ∈ events, e.1 = k

variable {rank} {k : K} {v : V} {gs : List (K × List V)}

theorem add_nil : add rank k v [] = [(k, [v])] := rfl

theorem isNew_nil : isNew rank k ([] : List (K × List V)) = true := rfl

theorem add_cons (g : K × List V) (gs : List (K × List V)) : add rank k v (g :: gs) =
    if rank g.1 < rank k then g :: add rank k v gs
    else if rank k < rank g.1 then (k, [v]) :: g :: gs
    else (g.1, g.2 ++ [v]) :: gs := rfl

theorem isNew_cons (g : K × List V) (gs : List (K × List V)) : isNew rank k (g :: gs) =
    if rank g.1 < rank k then isNew rank k gs else rank k < rank g.1 := rfl

theorem add_eq (gs : List (K × List V)) :
    add rank k v gs = gs.takeWhile (before rank k) ++
      match gs.dropWhile (before rank k) with
      | [] => [(k, [v])]
      | g :: gs =>
        if rank k < rank g.1 then (k, [v]) :: g :: gs else (g.1, g.2 ++ [v]) :: gs := by
  induction gs with
  | nil => rfl
  | cons x gs ih =>
    rw [add_cons, List.takeWhile_cons, List.dropWhile_cons, before]
    by_cases hlt : rank x.1 < rank k
    · simp [hlt, ih]
    · simp [hlt]

theorem isNew_eq (gs : List (K × List V)) :
    isNew rank k gs =
      match gs.dropWhile (before rank k) with
      | [] => true
      | g :: _ => rank k < rank g.1 := by
  induction gs with
  | nil => rfl
  | cons x gs ih =>
    rw [isNew_cons, List.dropWhile_cons, before]
    by_cases hlt : rank x.1 < rank k
    · simp [hlt, ih]
    · simp [hlt]

theorem sum_keys_add (rank : K → R) (k : K) (v : V) (f : K → Nat) (gs : List (K × List V)) :
    ((add rank k v gs).map fun g => f g.1).sum =
      (gs.map fun g => f g.1).sum + if isNew rank k gs then f k else 0 := by
  induction gs with
  | nil => simp [add_nil, isNew_nil]
  | cons x gs ih =>
    rw [add_cons, isNew_cons]
    by_cases hlt : rank x.1 < rank k
    · simp only [hlt, if_true, List.map_cons, List.sum_cons, ih]
      omega
    by_cases hgt : rank k < rank x.1
    · simp only [hlt, hgt, if_true, if_false, decide_true, List.map_cons, List.sum_cons]
      omega
    · simp [hlt, hgt]

theorem length_add (rank : K → R) (k : K) (v : V) (gs : List (K × List V)) :
    (add rank k v gs).length = gs.length + if isNew rank k gs then 1 else 0 := by
  have hsum := sum_keys_add rank k v (fun _ => 1) gs
  simpa using hsum

theorem sum_values_add (rank : K → R) (k : K) (v : V) (gs : List (K × List V)) :
    ((add rank k v gs).map fun g => g.2.length).sum = (gs.map fun g => g.2.length).sum + 1 := by
  induction gs with
  | nil => rfl
  | cons x gs ih =>
    rw [add_cons]
    split
    · simp only [List.map_cons, List.sum_cons, ih]
      omega
    · split
      · simp only [List.map_cons, List.sum_cons, List.length_singleton]
        omega
      · simp only [List.map_cons, List.sum_cons, List.length_append, List.length_singleton]
        omega

/-- The group of the key is in its place, and the others stay. -/
theorem mem_add (hs : Sorted rank gs) (hrank : ∀ g ∈ gs, rank g.1 = rank k → g.1 = k)
    {g : K × List V} :
    g ∈ add rank k v gs ↔ (g ∈ gs ∧ g.1 ≠ k) ∨
      (g.1 = k ∧ ∃ vs, g.2 = vs ++ [v] ∧ ((k, vs) ∈ gs ∨ vs = [] ∧ ∀ g' ∈ gs, g'.1 ≠ k)) := by
  induction gs with
  | nil =>
    rw [add_nil, List.mem_singleton]
    constructor
    · intro hg
      exact Or.inr ⟨by rw [hg], [], by rw [hg]; rfl, Or.inr ⟨rfl, by simp⟩⟩
    · intro hg
      obtain ⟨hmem, -⟩ | ⟨hk, vs, hvs, hmem | ⟨hnil, -⟩⟩ := hg
      · exact absurd hmem List.not_mem_nil
      · exact absurd hmem List.not_mem_nil
      · rw [hnil] at hvs
        exact Prod.ext hk hvs
  | cons x gs ih =>
    obtain ⟨hx, hgs⟩ := List.pairwise_cons.mp hs
    have hrank' : ∀ g ∈ gs, rank g.1 = rank k → g.1 = k :=
      fun g hg => hrank g (List.mem_cons_of_mem x hg)
    rw [add_cons]
    split
    · -- the key comes behind
      rename_i hlt
      have hxk : x.1 ≠ k := fun h => absurd hlt (by rw [h]; exact lt_irrefl _)
      rw [List.mem_cons, ih hgs hrank', List.mem_cons]
      constructor
      · intro hg
        obtain rfl | ⟨hmem, hk⟩ | ⟨hk, vs, hvs, hmem | ⟨hnil, hnone⟩⟩ := hg
        · exact Or.inl ⟨Or.inl rfl, hxk⟩
        · exact Or.inl ⟨Or.inr hmem, hk⟩
        · exact Or.inr ⟨hk, vs, hvs, Or.inl (List.mem_cons_of_mem x hmem)⟩
        · refine Or.inr ⟨hk, vs, hvs, Or.inr ⟨hnil, fun g' hg' => ?_⟩⟩
          obtain rfl | hg' := List.mem_cons.mp hg'
          · exact hxk
          · exact hnone g' hg'
      · intro hg
        obtain ⟨rfl | hmem, hk⟩ | ⟨hk, vs, hvs, hmem | ⟨hnil, hnone⟩⟩ := hg
        · exact Or.inl rfl
        · exact Or.inr (Or.inl ⟨hmem, hk⟩)
        · obtain heq | hmem := List.mem_cons.mp hmem
          · exact absurd (congrArg Prod.fst heq).symm hxk
          · exact Or.inr (Or.inr ⟨hk, vs, hvs, Or.inl hmem⟩)
        · exact Or.inr (Or.inr ⟨hk, vs, hvs, Or.inr ⟨hnil, fun g' hg' =>
            hnone g' (List.mem_cons_of_mem x hg')⟩⟩)
    · rename_i hnlt
      split
      · -- in front of all groups from here on
        rename_i hlt
        have hnone : ∀ g' ∈ x :: gs, g'.1 ≠ k := by
          intro g' hg' heq
          obtain rfl | hg' := List.mem_cons.mp hg'
          · exact absurd hlt (by rw [heq]; exact lt_irrefl _)
          · exact absurd (hlt.trans (hx g' hg')) (by rw [heq]; exact lt_irrefl _)
        rw [List.mem_cons]
        constructor
        · intro hg
          obtain rfl | hmem := hg
          · exact Or.inr ⟨rfl, [], rfl, Or.inr ⟨rfl, hnone⟩⟩
          · exact Or.inl ⟨hmem, hnone g hmem⟩
        · intro hg
          obtain ⟨hmem, -⟩ | ⟨hk, vs, hvs, hmem | ⟨hnil, -⟩⟩ := hg
          · exact Or.inr hmem
          · exact absurd rfl (hnone _ hmem)
          · rw [hnil] at hvs
            exact Or.inl (Prod.ext hk hvs)
      · -- the group of the key
        rename_i hngt
        have hxk : x.1 = k := hrank x List.mem_cons_self
          (le_antisymm (le_of_not_gt hngt) (le_of_not_gt hnlt))
        have hgs' : ∀ g' ∈ gs, g'.1 ≠ k := by
          intro g' hg' heq
          exact absurd (hx g' hg') (by rw [heq, hxk]; exact lt_irrefl _)
        rw [List.mem_cons]
        constructor
        · intro hg
          obtain rfl | hmem := hg
          · exact Or.inr ⟨hxk, x.2, rfl, Or.inl (by rw [← hxk]; exact List.mem_cons_self)⟩
          · exact Or.inl ⟨List.mem_cons_of_mem x hmem, hgs' g hmem⟩
        · intro hg
          obtain ⟨hmem, hk⟩ | ⟨hk, vs, hvs, hmem | ⟨-, hnone⟩⟩ := hg
          · obtain rfl | hmem := List.mem_cons.mp hmem
            · exact absurd hxk hk
            · exact Or.inr hmem
          · obtain heq | hmem := List.mem_cons.mp hmem
            · refine Or.inl (Prod.ext (hk.trans hxk.symm) ?_)
              rw [hvs, ← heq]
            · exact absurd rfl (hgs' _ hmem)
          · exact absurd hxk (hnone x List.mem_cons_self)

theorem Sorted.add (hs : Sorted rank gs) (hrank : ∀ g ∈ gs, rank g.1 = rank k → g.1 = k) :
    Sorted rank (add rank k v gs) := by
  induction gs with
  | nil => exact List.pairwise_singleton _ _
  | cons x gs ih =>
    obtain ⟨hx, hgs⟩ := List.pairwise_cons.mp hs
    have hrank' : ∀ g ∈ gs, rank g.1 = rank k → g.1 = k :=
      fun g hg => hrank g (List.mem_cons_of_mem x hg)
    rw [add_cons]
    split
    · rename_i hlt
      refine List.pairwise_cons.mpr ⟨fun g hg => ?_, ih hgs hrank'⟩
      obtain ⟨hmem, -⟩ | ⟨hk, -⟩ := (mem_add hgs hrank').mp hg
      · exact hx g hmem
      · rw [hk]
        exact hlt
    · split
      · rename_i hlt
        refine List.pairwise_cons.mpr ⟨fun g hg => ?_, hs⟩
        obtain rfl | hg := List.mem_cons.mp hg
        · exact hlt
        · exact hlt.trans (hx g hg)
      · exact List.pairwise_cons.mpr ⟨hx, hgs⟩

variable [DecidableEq K] {events : List (K × V)}

private theorem valuesOf_append (events : List (K × V)) (k k' : K) (v : V) :
    valuesOf (events ++ [(k, v)]) k' = valuesOf events k' ++ if k = k' then [v] else [] := by
  unfold valuesOf
  by_cases hk : k = k' <;> simp [hk]

theorem valuesOf_eq_nil (hk : ∀ e ∈ events, e.1 ≠ k) : valuesOf events k = [] := by
  unfold valuesOf
  rw [List.map_eq_nil_iff, List.filter_eq_nil_iff]
  intro e he
  simpa using hk e he

theorem Groups.nil : Groups rank ([] : List (K × V)) [] where
  sorted := List.Pairwise.nil
  values := fun g hg => absurd hg List.not_mem_nil
  keys := fun k => by simp

/-- One event more: its key gets one value more, or is new. -/
theorem Groups.add (hg : Groups rank events gs)
    (hrank : ∀ e ∈ events, rank e.1 = rank k → e.1 = k) :
    Groups rank (events ++ [(k, v)]) (add rank k v gs) := by
  have hrank' : ∀ g ∈ gs, rank g.1 = rank k → g.1 = k := by
    intro g hgs
    obtain ⟨e, he, hek⟩ := (hg.keys g.1).mp ⟨g, hgs, rfl⟩
    rw [← hek]
    exact hrank e he
  refine ⟨hg.sorted.add hrank', fun g hmem => ?_, fun k' => ?_⟩
  · rw [valuesOf_append]
    obtain ⟨hgs, hk⟩ | ⟨hk, vs, hvs, hgs | ⟨hnil, hnone⟩⟩ := (mem_add hg.sorted hrank').mp hmem
    · rw [if_neg (Ne.symm hk), List.append_nil]
      exact hg.values g hgs
    · rw [hk, if_pos rfl, hvs, ← hg.values _ hgs]
    · have hnone' : ∀ e ∈ events, e.1 ≠ k := by
        intro e he heq
        obtain ⟨g', hg', hk'⟩ := (hg.keys k).mpr ⟨e, he, heq⟩
        exact hnone g' hg' hk'
      rw [hk, if_pos rfl, hvs, hnil, valuesOf_eq_nil hnone']
  · constructor
    · intro ⟨g, hmem, hgk⟩
      obtain ⟨hgs, -⟩ | ⟨hk, -⟩ := (mem_add hg.sorted hrank').mp hmem
      · obtain ⟨e, he, hek⟩ := (hg.keys k').mp ⟨g, hgs, hgk⟩
        exact ⟨e, List.mem_append_left _ he, hek⟩
      · exact ⟨(k, v), by simp, by rw [← hgk, hk]⟩
    · intro ⟨e, he, hek⟩
      by_cases hk : k' = k
      · by_cases hold : ∃ g ∈ gs, g.1 = k
        · obtain ⟨g, hgs, hgk⟩ := hold
          refine ⟨(k, g.2 ++ [v]), (mem_add hg.sorted hrank').mpr ?_, hk.symm⟩
          exact Or.inr ⟨rfl, g.2, rfl, Or.inl (by rw [← hgk]; exact hgs)⟩
        · refine ⟨(k, [v]), (mem_add hg.sorted hrank').mpr ?_, hk.symm⟩
          exact Or.inr ⟨rfl, [], rfl, Or.inr ⟨rfl, fun g' hg' heq => hold ⟨g', hg', heq⟩⟩⟩
      · obtain he | he := List.mem_append.mp he
        · obtain ⟨g, hgs, hgk⟩ := (hg.keys k').mpr ⟨e, he, hek⟩
          exact ⟨g, (mem_add hg.sorted hrank').mpr (Or.inl ⟨hgs, fun h => hk (hgk ▸ h)⟩), hgk⟩
        · rw [List.mem_singleton.mp he] at hek
          exact absurd hek.symm hk

theorem Groups.unique {gs' : List (K × List V)} (hg : Groups rank events gs)
    (hg' : Groups rank events gs') : gs = gs' := by
  have hsub : ∀ {gs gs' : List (K × List V)}, Groups rank events gs → Groups rank events gs' →
      ∀ g ∈ gs, g ∈ gs' := by
    intro gs gs' hg hg' g hmem
    obtain ⟨g', hmem', hk⟩ := (hg'.keys g.1).mpr ((hg.keys g.1).mp ⟨g, hmem, rfl⟩)
    have hvalues : g'.2 = g.2 := by rw [hg.values g hmem, hg'.values g' hmem', hk]
    rwa [← Prod.ext hk hvalues]
  have hnodup : ∀ {gs : List (K × List V)}, Groups rank events gs → gs.Nodup := by
    intro gs hg
    exact hg.sorted.imp fun hlt heq => absurd hlt (by rw [heq]; exact lt_irrefl _)
  have hperm : gs.Perm gs' := (List.perm_ext_iff_of_nodup (hnodup hg) (hnodup hg')).mpr fun g =>
    ⟨hsub hg hg' g, hsub hg' hg g⟩
  exact hperm.eq_of_pairwise (fun a b _ _ hab hba => absurd hba (lt_asymm hab)) hg.sorted
    hg'.sorted

theorem Groups.length_le (hg : Groups rank events gs) : gs.length ≤ events.length := by
  have hnodup : (gs.map Prod.fst).Nodup := by
    rw [List.nodup_iff_pairwise_ne, List.pairwise_map]
    exact hg.sorted.imp fun hlt heq => absurd hlt (by rw [heq]; exact lt_irrefl _)
  have hsub : gs.map Prod.fst ⊆ events.map Prod.fst := by
    intro k hk
    obtain ⟨g, hmem, rfl⟩ := List.mem_map.mp hk
    obtain ⟨e, he, hek⟩ := (hg.keys g.1).mp ⟨g, hmem, rfl⟩
    exact hek ▸ List.mem_map_of_mem he
  simpa using (List.subperm_of_subset hnodup hsub).length_le

theorem Groups.length_values_le (hg : Groups rank events gs) {g : K × List V} (hmem : g ∈ gs) :
    g.2.length ≤ events.length := by
  rw [hg.values g hmem]
  unfold valuesOf
  rw [List.length_map]
  exact List.length_filter_le _ _

theorem Groups.mem_values (hg : Groups rank events gs) {g : K × List V} (hmem : g ∈ gs)
    (hv : v ∈ g.2) : (g.1, v) ∈ events := by
  rw [hg.values g hmem] at hv
  obtain ⟨e, he, rfl⟩ := List.mem_map.mp hv
  obtain ⟨he, hk⟩ := List.mem_filter.mp he
  rw [← of_decide_eq_true hk]
  exact he

theorem Groups.nonempty (hg : Groups rank events gs) (hne : events ≠ []) : gs ≠ [] := by
  obtain ⟨e, he⟩ := List.exists_mem_of_ne_nil events hne
  obtain ⟨g, hmem, -⟩ := (hg.keys e.1).mpr ⟨e, he, rfl⟩
  exact List.ne_nil_of_mem hmem

theorem Groups.ne_nil (hg : Groups rank events gs) {g : K × List V} (hmem : g ∈ gs) :
    g.2 ≠ [] := by
  obtain ⟨e, he, hek⟩ := (hg.keys g.1).mp ⟨g, hmem, rfl⟩
  rw [hg.values g hmem]
  apply List.ne_nil_of_mem (a := e.2)
  exact List.mem_map_of_mem (List.mem_filter.mpr ⟨he, by simpa using hek⟩)

end Grouping
