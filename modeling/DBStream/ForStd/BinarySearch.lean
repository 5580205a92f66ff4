import Mathlib.Data.List.Basic

/-!
# Binary search

The loop `while (s <= e)` over a closed range of numbers, with a comparison that can fail.
`binarySearch_spec` says where the bounds and the last probe stand when nothing was found:
callers use the probe to choose a neighbour.
-/

variable {ε : Type}

/-- Binary search over `s..e`.  `cmp i` compares the target with what is at `i`; `m` is the last
    probe.  The answer says whether the last probe is a hit and gives `m`, `s` and `e`. -/
def binarySearch (endless : ε) (cmp : Int → Except ε Ordering) :
    Nat → Int → Int → Int → Except ε (Bool × Int × Int × Int)
  | 0, _, _, _ => .error endless
  | fuel + 1, s, e, m =>
    if s ≤ e then do
      let m := (s + e) / 2
      match ← cmp m with
      | .gt => binarySearch endless cmp fuel (m + 1) e m
      | .lt => binarySearch endless cmp fuel s (m - 1) m
      | .eq => return (true, m, s, e)
    else .ok (false, m, s, e)

/-- The comparison answers `f` on `lo..hi`, and the targets ahead of a hit and behind it lie on
    their sides. -/
structure SearchOrder (cmp : Int → Except ε Ordering) (f : Int → Ordering) (lo hi : Int) : Prop where
  total : ∀ i, lo ≤ i → i ≤ hi → cmp i = .ok (f i)
  gt_of_lt : ∀ i j, lo ≤ i → i < j → j ≤ hi → f j = .gt → f i = .gt
  lt_of_lt : ∀ i j, lo ≤ i → i < j → j ≤ hi → f i = .lt → f j = .lt

/-- What the search knows between two probes: everything below `s` is too small, everything above
    `e` is too large, and the last probe is next to one of them. -/
structure SearchInv (f : Int → Ordering) (lo hi s e m : Int) : Prop where
  lo_le : lo ≤ s
  le_hi : e ≤ hi
  crossed : s ≤ e + 1
  below : ∀ i, lo ≤ i → i < s → f i = .gt
  above : ∀ i, e < i → i ≤ hi → f i = .lt
  probe : (s = lo ∧ e = hi) ∨ (lo ≤ m ∧ m ≤ hi ∧ (m + 1 = s ∨ m = e + 1))

theorem SearchInv.start (f : Int → Ordering) {lo hi : Int} (h : lo ≤ hi + 1) (m : Int) :
    SearchInv f lo hi lo hi m where
  lo_le := Int.le_refl _
  le_hi := Int.le_refl _
  crossed := h
  below := by
    intro i hlo hi
    omega
  above := by
    intro i hlo hi
    omega
  probe := .inl ⟨rfl, rfl⟩

variable {fuel : Nat}

variable {cmp : Int → Except ε Ordering}

/-- The loop ends with a hit inside the range, or with the gap where a hit would be. -/
theorem binarySearch_spec (endless : ε) {f : Int → Ordering}
    {lo hi : Int} (hcmp : SearchOrder cmp f lo hi) {s e m : Int}
    (hinv : SearchInv f lo hi s e m) (hfuel : e + 1 - s < fuel) :
    ∃ found m' s' e', binarySearch endless cmp fuel s e m = .ok (found, m', s', e') ∧
      ((found = true ∧ lo ≤ m' ∧ m' ≤ hi ∧ f m' = .eq) ∨
       (found = false ∧ s' = e' + 1 ∧ SearchInv f lo hi s' e' m')) := by
  induction fuel generalizing s e m with
  | zero =>
    have hcross := hinv.crossed
    omega
  | succ fuel ih =>
    unfold binarySearch
    by_cases hle : s ≤ e
    swap
    · have hcross := hinv.crossed
      rw [if_neg hle]
      exact ⟨false, m, s, e, rfl, .inr ⟨rfl, by omega, hinv⟩⟩
    have hlo := hinv.lo_le
    have hhi := hinv.le_hi
    have hm₁ : s ≤ (s + e) / 2 := by omega
    have hm₂ : (s + e) / 2 ≤ e := by omega
    generalize (s + e) / 2 = p at hm₁ hm₂
    rw [if_pos hle]
    simp only [hcmp.total p (by omega) (by omega)]
    cases hfp : f p with
    | eq => exact ⟨true, p, s, e, rfl, .inl ⟨rfl, by omega, by omega, hfp⟩⟩
    | gt =>
      apply ih _ (by omega)
      refine ⟨by omega, hhi, by omega, ?_, hinv.above, .inr ⟨by omega, by omega, .inl rfl⟩⟩
      intro i hlo' hi'
      rcases Int.lt_or_eq_of_le (Int.lt_add_one_iff.mp hi') with hlt | rfl
      · exact hcmp.gt_of_lt i p hlo' hlt (by omega) hfp
      · exact hfp
    | lt =>
      apply ih _ (by omega)
      refine ⟨hlo, by omega, by omega, hinv.below, ?_, .inr ⟨by omega, by omega, .inr (by omega)⟩⟩
      intro i hlo' hi'
      rcases Int.lt_or_eq_of_le (show p ≤ i by omega) with hlt | rfl
      · exact hcmp.lt_of_lt p i (by omega) hlt hi' hfp
      · exact hfp

/-- A place that the comparison hits, and tells from the places on both sides, is found. -/
theorem binarySearch_hit (endless : ε) {lo hi p : Int}
    (hlo : lo ≤ p) (hhi : p ≤ hi) (hbelow : ∀ i, lo ≤ i → i < p → cmp i = .ok .gt)
    (hat : cmp p = .ok .eq) (habove : ∀ i, p < i → i ≤ hi → cmp i = .ok .lt)
    (hfuel : hi + 1 - lo < fuel) (m : Int) :
    ∃ s e, binarySearch endless cmp fuel lo hi m = .ok (true, p, s, e) := by
  let f : Int → Ordering := fun i => if i < p then .gt else if p < i then .lt else .eq
  have hgt : ∀ i, i < p → f i = .gt := fun i h => if_pos h
  have hlt : ∀ i, p < i → f i = .lt := by
    intro i h
    show (if i < p then _ else if p < i then _ else _) = _
    rw [if_neg (by omega), if_pos h]
  have heq : f p = .eq := by
    show (if p < p then _ else if p < p then _ else _) = _
    rw [if_neg (by omega), if_neg (by omega)]
  have horder : SearchOrder cmp f lo hi := by
    refine ⟨?_, ?_, ?_⟩
    · intro i hi₁ hi₂
      rcases Int.lt_trichotomy i p with h | rfl | h
      · rw [hgt i h, hbelow i hi₁ h]
      · rw [heq, hat]
      · rw [hlt i h, habove i h hi₂]
    · intro i j _ hij _ hj
      rcases Int.lt_trichotomy j p with h | rfl | h
      · exact hgt i (by omega)
      · exact hgt i hij
      · rw [hlt j h] at hj
        cases hj
    · intro i j _ hij _ hi
      rcases Int.lt_trichotomy i p with h | rfl | h
      · rw [hgt i h] at hi
        cases hi
      · exact hlt j hij
      · exact hlt j (by omega)
  obtain ⟨found, m', s, e, hsearch, hcase⟩ := binarySearch_spec endless horder
    (SearchInv.start f (by omega) m) hfuel
  rcases hcase with ⟨rfl, -, -, hm⟩ | ⟨-, hcross, hinv⟩
  · rcases Int.lt_trichotomy m' p with h | rfl | h
    · rw [hgt m' h] at hm
      cases hm
    · exact ⟨s, e, hsearch⟩
    · rw [hlt m' h] at hm
      cases hm
  · -- the hit is on neither side
    rcases Int.lt_or_le p s with h | h
    · have hside := hinv.below p hlo h
      rw [heq] at hside
      cases hside
    · have hside := hinv.above p (by omega) hhi
      rw [heq] at hside
      cases hside

/-- A search ends at a place in its range, and at a hit where it says so. -/
theorem binarySearch_probe {endless : ε}
    {s e m : Int} {found : Bool} {m' s' e' : Int} (hle : s ≤ e)
    (h : binarySearch endless cmp fuel s e m = .ok (found, m', s', e')) :
    s ≤ m' ∧ m' ≤ e ∧ (found = true → cmp m' = .ok .eq) := by
  induction fuel generalizing s e m with
  | zero => cases h
  | succ fuel ih =>
    unfold binarySearch at h
    rw [if_pos hle] at h
    have hm₁ : s ≤ (s + e) / 2 := by omega
    have hm₂ : (s + e) / 2 ≤ e := by omega
    generalize (s + e) / 2 = p at h hm₁ hm₂
    cases hp : cmp p with
    | error err =>
      simp only [hp] at h
      cases h
    | ok o =>
      -- one turn more, or the end of the search with `p` as the last probe
      have hturn : ∀ s₁ e₁, s ≤ s₁ → e₁ ≤ e →
          binarySearch endless cmp fuel s₁ e₁ p = .ok (found, m', s', e') →
          s ≤ m' ∧ m' ≤ e ∧ (found = true → cmp m' = .ok .eq) := by
        intro s₁ e₁ hs he h
        by_cases hle' : s₁ ≤ e₁
        · obtain ⟨h₁, h₂, h₃⟩ := ih hle' h
          exact ⟨by omega, by omega, h₃⟩
        · cases fuel with
          | zero => cases h
          | succ fuel =>
            unfold binarySearch at h
            rw [if_neg hle'] at h
            cases h
            exact ⟨hm₁, hm₂, fun h => nomatch h⟩
      simp only [hp] at h
      cases o with
      | gt => exact hturn _ _ (by omega) (Int.le_refl _) h
      | lt => exact hturn _ _ (Int.le_refl _) (by omega) h
      | eq =>
        cases h
        exact ⟨hm₁, hm₂, fun _ => hp⟩

/-! ## Where the search hits -/

/-- The first midpoint in `a..c-1` when `s..e` is halved towards that range. -/
def firstProbe (a c : Int) : Nat → Int → Int → Option Int
  | 0, _, _ => none
  | fuel + 1, s, e =>
    if s ≤ e then
      let m := (s + e) / 2
      if m < a then firstProbe a c fuel (m + 1) e
      else if c ≤ m then firstProbe a c fuel s (m - 1)
      else some m
    else none

/-- In `lo..hi` the target is at the places `a..c-1`. -/
structure SearchRun (cmp : Int → Except ε Ordering) (lo hi a c : Int) : Prop where
  below : ∀ i, lo ≤ i → i ≤ hi → i < a → cmp i = .ok .gt
  inside : ∀ i, lo ≤ i → i ≤ hi → a ≤ i → i < c → cmp i = .ok .eq
  behind : ∀ i, lo ≤ i → i ≤ hi → c ≤ i → a ≤ i → cmp i = .ok .lt

theorem firstProbe_mem {a c : Int} {s e p : Int}
    (h : firstProbe a c fuel s e = some p) : a ≤ p ∧ p < c := by
  induction fuel generalizing s e with
  | zero => cases h
  | succ fuel ih =>
    unfold firstProbe at h
    by_cases hle : s ≤ e
    swap
    · rw [if_neg hle] at h
      cases h
    rw [if_pos hle] at h
    generalize (s + e) / 2 = m at h
    by_cases hma : m < a
    · rw [if_pos hma] at h
      exact ih h
    rw [if_neg hma] at h
    by_cases hcm : c ≤ m
    · rw [if_pos hcm] at h
      exact ih h
    · rw [if_neg hcm] at h
      cases h
      omega

theorem firstProbe_exists {a c : Int} (hac : a < c) {s e : Int} (hs : s ≤ a)
    (he : c ≤ e + 1) (hfuel : e + 1 - s < fuel) : ∃ p, firstProbe a c fuel s e = some p := by
  induction fuel generalizing s e with
  | zero => omega
  | succ fuel ih =>
    unfold firstProbe
    rw [if_pos (by omega)]
    have hm₁ : s ≤ (s + e) / 2 := by omega
    have hm₂ : (s + e) / 2 ≤ e := by omega
    generalize (s + e) / 2 = m at hm₁ hm₂
    by_cases hma : m < a
    · rw [if_pos hma]
      exact ih (by omega) he (by omega)
    rw [if_neg hma]
    by_cases hcm : c ≤ m
    · rw [if_pos hcm]
      exact ih hs (by omega) (by omega)
    · rw [if_neg hcm]
      exact ⟨m, rfl⟩

theorem binarySearch_of_firstProbe (endless : ε)
    {lo hi a c p : Int} (hcmp : SearchRun cmp lo hi a c) {s e : Int} (hs : lo ≤ s)
    (he : e ≤ hi) (hp : firstProbe a c fuel s e = some p) (m : Int) :
    ∃ s' e', binarySearch endless cmp fuel s e m = .ok (true, p, s', e') := by
  induction fuel generalizing s e m with
  | zero => cases hp
  | succ fuel ih =>
    unfold firstProbe at hp
    unfold binarySearch
    by_cases hle : s ≤ e
    swap
    · rw [if_neg hle] at hp
      cases hp
    rw [if_pos hle] at hp ⊢
    have hm₁ : s ≤ (s + e) / 2 := by omega
    have hm₂ : (s + e) / 2 ≤ e := by omega
    generalize (s + e) / 2 = q at hp hm₁ hm₂
    by_cases hqa : q < a
    · rw [if_pos hqa] at hp
      simp only [hcmp.below q (by omega) (by omega) hqa]
      exact ih (by omega) he hp q
    rw [if_neg hqa] at hp
    by_cases hcq : c ≤ q
    · rw [if_pos hcq] at hp
      simp only [hcmp.behind q (by omega) (by omega) hcq (by omega)]
      exact ih hs (by omega) hp q
    · rw [if_neg hcq] at hp
      have hqp : q = p := Option.some.inj hp
      simp only [hcmp.inside q (by omega) (by omega) (by omega) (by omega), ← hqp]
      exact ⟨s, e, rfl⟩
