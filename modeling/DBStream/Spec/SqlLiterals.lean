import DBStream.ForStd.Loops
import DBStream.Native.SqlLiterals
import DBStream.Spec.SqlParse
import DBStream.Spec.SqlReturns
import Mathlib.Data.List.TakeWhile

/-!
# Blanks and literals in SQL

What blanks and complete comments are, and what a literal is, apart from how the parser looks for
their ends; and when the parser finds the same.
-/

namespace DBStream.Native.SQL_PARSER

/-! ## Blanks -/

/-- Behind `/*` there is a `*/` at place `k`, and no backslash before it. -/
def ClosesAt (prev : UInt8) (t : Sql) (k : Nat) : Prop :=
  t[k]? = some 42 ∧ t[k + 1]? = some 47 ∧ (prev :: t)[k]? ≠ some 92

/-- A space or a complete comment is left out. -/
inductive SkipStep : Sql → Sql → Prop where
  | space {c : UInt8} {s : Sql} : isSpace c = true → SkipStep (c :: s) s
  | comment {t : Sql} {k : Nat} : IsLeast {k | ClosesAt 42 t k} k →
      SkipStep (47 :: 42 :: t) (t.drop (k + 2))

/-- Spaces and complete comments are left out. -/
def Skips : Sql → Sql → Prop := Relation.ReflTransGen SkipStep

def OpenComment (w : Sql) : Prop := ∃ t, w = 47 :: 42 :: t ∧ ∀ k, ¬ ClosesAt 42 t k

/-- Neither a space nor a complete comment begins here. -/
def AtWord (w : Sql) : Prop := ∀ s, ¬ SkipStep w s

variable {prev c : UInt8} {str sql s s' t w : Sql} {k n : Nat}

theorem closesAt_cons : ClosesAt prev (c :: t) (k + 1) ↔ ClosesAt c t k := by simp [ClosesAt]

theorem endOfComment_eq_some : endOfComment prev t = some s ↔
    ∃ k, IsLeast {k | ClosesAt prev t k} k ∧ s = t.drop (k + 2) := by
  induction t generalizing prev with
  | nil => simp [endOfComment, ClosesAt, IsLeast]
  | cons c t ih =>
    have hzero : ClosesAt prev (c :: t) 0 ↔ c = 42 ∧ prev ≠ 92 ∧ t.head? = some 47 := by
      simp [ClosesAt, List.head?_eq_getElem?, and_comm]
    rw [endOfComment]
    split
    case isTrue hends =>
      simp only [isLeast_of_zero (hzero.mpr hends), exists_eq_left]
      rw [Option.some.injEq, List.drop_succ_cons, List.drop_one, eq_comm]
    case isFalse hends =>
      rw [ih]
      simp only [isLeast_succ (mt hzero.mp hends), closesAt_cons]
      constructor
      · rintro ⟨k, hk, rfl⟩
        exact ⟨k + 1, ⟨k, rfl, hk⟩, rfl⟩
      · rintro ⟨_, ⟨k, rfl, hk⟩, rfl⟩
        exact ⟨k, hk, rfl⟩

theorem SkipStep.unique (h : SkipStep w s) (h' : SkipStep w s') : s = s' := by
  cases h with
  | space hc =>
    cases h' with
    | space => rfl
    | comment => exact absurd hc (by decide)
  | comment hk =>
    cases h' with
    | space hc => exact absurd hc (by decide)
    | comment hk' => rw [hk.unique hk']

theorem SkipStep.length_lt (h : SkipStep w s) : s.length < w.length := by
  cases h with
  | space => exact Nat.lt_succ_self _
  | comment =>
    rw [List.length_drop, List.length_cons, List.length_cons]
    omega

theorem Skips.unique (h : Skips str w) (hw : AtWord w) (h' : Skips str s) (hs : AtWord s) : w = s := by
  have hunique : Relator.RightUnique SkipStep := fun _ _ _ h h' => h.unique h'
  obtain h | h := Relation.ReflTransGen.total_of_right_unique hunique h h'
  · obtain rfl | ⟨_, hstep, _⟩ := h.cases_head
    · rfl
    · exact absurd hstep (hw _)
  · obtain rfl | ⟨_, hstep, _⟩ := h.cases_head
    · rfl
    · exact absurd hstep (hs _)

theorem exists_atWord (str : Sql) : ∃ w, Skips str w ∧ AtWord w := by
  induction hlen : str.length using Nat.strongRecOn generalizing str with
  | ind n ih =>
    by_cases hstep : ∃ s, SkipStep str s
    · obtain ⟨s, hstep⟩ := hstep
      obtain ⟨w, hskips, hw⟩ := ih s.length (hlen ▸ hstep.length_lt) s rfl
      exact ⟨w, .head hstep hskips, hw⟩
    · exact ⟨str, .refl, not_exists.mp hstep⟩

theorem OpenComment.atWord (h : OpenComment w) : AtWord w := by
  obtain ⟨t, rfl, hopen⟩ := h
  intro s hstep
  cases hstep with
  | space hc => exact absurd hc (by decide)
  | comment hk => exact hopen _ hk.1

theorem atWord_iff : AtWord w ↔ isSpaceOrComment w = false ∨ OpenComment w := by
  constructor
  · intro hw
    cases w with
    | nil => exact .inl rfl
    | cons c rest =>
      by_cases hspace : isSpace c = true
      · exact absurd (.space hspace) (hw rest)
      · by_cases hcomment : c = 47 ∧ rest.head? = some 42
        · obtain ⟨rfl, hhead⟩ := hcomment
          obtain ⟨t, rfl⟩ : ∃ t, rest = 42 :: t := by
            cases rest with
            | nil => cases hhead
            | cons d t => exact ⟨t, by rw [Option.some.inj hhead]⟩
          refine .inr ⟨t, rfl, fun k hk => ?_⟩
          obtain ⟨k, hleast⟩ := exists_isLeast hk
          exact hw _ (.comment hleast)
        · left
          simpa [isSpaceOrComment, hspace] using hcomment
  · rintro (hword | hopen)
    · intro s hstep
      cases hstep with
      | space hc => simp [isSpaceOrComment, hc] at hword
      | comment => simp [isSpaceOrComment] at hword
    · exact hopen.atWord

theorem skips_jumpOverSpace (s : Sql) : Skips s (jumpOverSpace s) := by
  induction s with
  | nil => exact .refl
  | cons c s ih =>
    unfold jumpOverSpace at ih ⊢
    rw [List.dropWhile_cons]
    split
    · exact .head (.space ‹_›) ih
    · exact .refl

theorem skips_jump (str : Sql) : Skips str (jumpOverSpace (jumpOverComment str)) := by
  refine Relation.ReflTransGen.trans ?_ (skips_jumpOverSpace _)
  have hspaces := skips_jumpOverSpace str
  unfold jumpOverComment
  split
  case h_1 rest hrest =>
    rw [hrest] at hspaces
    cases hend : endOfComment 42 rest with
    | none => exact .refl
    | some s =>
      obtain ⟨k, hk, rfl⟩ := endOfComment_eq_some.mp hend
      exact hspaces.tail (.comment hk)
  case h_2 => exact .refl

theorem jump_length_lt (h : isSpaceOrComment str = true) (hopen : ¬ OpenComment str) :
    (jumpOverSpace (jumpOverComment str)).length < str.length := by
  obtain ⟨s, hstep⟩ : ∃ s, SkipStep str s := by
    by_contra hnone
    obtain hword | hword := atWord_iff.mp (not_exists.mp hnone)
    · rw [h] at hword
      cases hword
    · exact hopen hword
  obtain heq | ⟨s', hfirst, hrest⟩ := (skips_jump str).cases_head
  · -- the turn would leave the text as it is
    cases hstep with
    | @space c s hc =>
      have hend : (jumpOverSpace (jumpOverComment (c :: s))).head? = some c := by rw [← heq]; rfl
      have hnot := List.head?_dropWhile_not isSpace (jumpOverComment (c :: s))
      unfold jumpOverSpace at hend
      rw [hend] at hnot
      simp [hc] at hnot
    | @comment t k hk =>
      have hend := endOfComment_eq_some.mpr ⟨k, hk, rfl⟩
      have hjump : jumpOverComment (47 :: 42 :: t) = t.drop (k + 2) := by
        show (endOfComment 42 t).getD _ = _
        rw [hend]
        rfl
      have hle := (List.dropWhile_suffix isSpace (l := t.drop (k + 2))).length_le
      rw [hjump] at heq
      have hlength := congrArg List.length heq
      unfold jumpOverSpace at hlength
      rw [List.length_cons, List.length_cons] at hlength
      rw [List.length_drop] at hle
      omega
  · have hle : ∀ {a b : Sql}, Skips a b → b.length ≤ a.length := fun h => by
      induction h with
      | refl => exact Nat.le_refl _
      | tail _ hstep ih => exact hstep.length_lt.le.trans ih
    exact (hle hrest).trans_lt hfirst.length_lt

theorem skips_of_nextWordFrom (h : nextWordFrom n str = some w) : Skips str w := by
  induction n generalizing str with
  | zero => cases h
  | succ n ih =>
    rw [nextWordFrom] at h
    split at h
    · exact (skips_jump str).trans (ih h)
    · rw [Option.some.inj h]
      exact .refl

theorem nextWordFrom_eq (h : Skips str w) (hw : isSpaceOrComment w = false)
    (hlength : str.length < n) : nextWordFrom n str = some w := by
  have hat : AtWord w := atWord_iff.mpr (.inl hw)
  induction n generalizing str with
  | zero => exact absurd hlength (Nat.not_lt_zero _)
  | succ n ih =>
    rw [nextWordFrom]
    split
    case isTrue hspace =>
      have hopen : ¬ OpenComment str := fun hopen => by
        rw [← Skips.unique .refl hopen.atWord h hat, hspace] at hw
        cases hw
      have hlt := jump_length_lt hspace hopen
      obtain ⟨v, hv, hvat⟩ := exists_atWord (jumpOverSpace (jumpOverComment str))
      have hsame := Skips.unique ((skips_jump str).trans hv) hvat h hat
      exact ih (hsame ▸ hv) (by omega)
    case isFalse hspace =>
      have hstr : AtWord str := atWord_iff.mpr (.inl (by simpa using hspace))
      rw [Skips.unique .refl hstr h hat]

/-- Where the blanks in front of a text end. -/
structure SkipsTo (str w : Sql) : Prop where
  skips : Skips str w
  atWord : AtWord w

/-- The skip comes to an end exactly where it does not meet an open comment. -/
theorem nextWord_returns_iff (str : Sql) :
    (∃ n w, nextWordFrom n str = some w ∧ w <:+ str ∧ AtWord w) ↔
      ∀ w, Skips str w → ¬ OpenComment w := by
  constructor
  · rintro ⟨n, w, hnext, -⟩ v hv hopen
    have hword := not_isSpaceOrComment_of_nextWordFrom hnext
    have hsame := Skips.unique (skips_of_nextWordFrom hnext) (atWord_iff.mpr (.inl hword)) hv
      hopen.atWord
    obtain ⟨t, rfl, -⟩ := hopen
    rw [hsame] at hword
    cases hword
  · intro hclosed
    obtain ⟨w, hskips, hat⟩ := exists_atWord str
    have hword := (atWord_iff.mp hat).resolve_right (hclosed w hskips)
    have hnext := nextWordFrom_eq hskips hword (Nat.lt_succ_self _)
    exact ⟨_, w, hnext, nextWordFrom_suffix hnext, hat⟩

/-- An open comment at the beginning of a text. -/
theorem nextWord_hangs : ¬ ∃ n w, nextWordFrom n [47, 42] = some w ∧ w <:+ [47, 42] ∧ AtWord w := by
  rintro ⟨n, w, hnext, -⟩
  induction n with
  | zero => cases hnext
  | succ n ih => exact ih hnext

theorem startOf_eq (h : SkipsTo sql w) :
    startOf sql = if isSpaceOrComment w then .error .endless else .ok w := by
  unfold startOf
  by_cases hspace : isSpaceOrComment w = true
  · rw [if_pos hspace]
    cases hnext : nextWord sql with
    | none => rfl
    | some v =>
      have hword := not_isSpaceOrComment_of_nextWordFrom hnext
      rw [Skips.unique (skips_of_nextWordFrom hnext) (atWord_iff.mpr (.inl hword)) h.skips
        h.atWord, hspace] at hword
      cases hword
  · have hnext : nextWord sql = some w :=
      nextWordFrom_eq h.skips (by simpa using hspace) (Nat.lt_succ_self _)
    rw [if_neg hspace, hnext]

theorem closed_of_startOf {α : Type} {f : Sql → Exec α} {r : α} (h : SkipsTo sql w)
    (hok : startOf sql >>= f = .ok r) : ¬ OpenComment w := by
  rintro ⟨t, rfl, -⟩
  rw [startOf_eq h] at hok
  cases hok

theorem startOf_bind {α : Type} {f : Sql → Exec α} (h : SkipsTo sql w) (hclosed : ¬ OpenComment w) :
    startOf sql >>= f = f w := by
  rw [startOf_eq h, (atWord_iff.mp h.atWord).resolve_right hclosed]
  rfl

/-! ## Brackets -/

/-- How many brackets are open behind a text. -/
def depth (t : Sql) : Int := t.count 40 - t.count 41

/-- The lengths of the prefixes with as many closing as opening brackets. -/
def balanced (w : Sql) : Set Nat := {n | 0 < n ∧ n ≤ w.length ∧ depth (w.take n) = 0}

/-- `match` returns, and it finds the shortest balanced prefix of a text that begins with a
    bracket. -/
def BracketsExact (sql w : Sql) : Prop :=
  ∃ result, SQLBracketsWord.match sql = .ok result ∧ ∀ value rest, result = some (value, rest) ↔
    w.head? = some 40 ∧ ∃ n, IsLeast (balanced w) n ∧ value = (w.take (n - 1)).tail ∧
      rest = w.drop n

/-- A closing bracket before the text is balanced, where the counter is not positive. -/
def Wraps (w : Sql) : Prop :=
  ∃ n, w[n]? = some 41 ∧ (∀ m ∈ balanced w, n + 1 < m) ∧ (depth (w.take (n + 1))).bmod (2 ^ 32) ≤ 0

theorem depth_cons (c : UInt8) (t : Sql) :
    depth (c :: t) = (if c = 40 then 1 else if c = 41 then -1 else 0) + depth t := by
  unfold depth
  rw [List.count_cons, List.count_cons]
  by_cases h : c = 40
  · subst h
    simp
    omega
  · by_cases h' : c = 41
    · subst h'
      simp
      omega
    · simp [h, h']

/-- The search stops at a closing bracket. -/
def StopsAt (d : Int) (t : Sql) (n : Nat) : Prop :=
  t[n]? = some 41 ∧ (d + depth (t.take (n + 1))).bmod (2 ^ 32) ≤ 0

private theorem stopsAt_succ {d : Int} : StopsAt d (c :: t) (n + 1) ↔
    StopsAt (d + (if c = 40 then 1 else if c = 41 then -1 else 0)) t n := by
  rw [StopsAt, StopsAt, List.getElem?_cons_succ, List.take_succ_cons, depth_cons, Int.add_assoc]

/-- The search stops at the least closing bracket at which the 32-bit counter is not positive. -/
theorem findEnd_eq_some {d : Int} : SQLBracketsWord.findEnd (d.bmod (2 ^ 32)) t = some n ↔
    IsLeast {n | StopsAt d t n} n := by
  induction t generalizing d n with
  | nil => simp [SQLBracketsWord.findEnd, StopsAt, IsLeast]
  | cons c t ih =>
    have hzero : StopsAt d (c :: t) 0 ↔ c = 41 ∧ (d - 1).bmod (2 ^ 32) ≤ 0 := by
      rw [StopsAt, List.getElem?_cons_zero, Option.some.injEq]
      refine and_congr_right ?_
      rintro rfl
      rfl
    have hstep {d' : Int} (hnot : ¬ (c = 41 ∧ (d - 1).bmod (2 ^ 32) ≤ 0))
        (hd : d + (if c = 40 then 1 else if c = 41 then -1 else 0) = d') :
        (SQLBracketsWord.findEnd (d'.bmod (2 ^ 32)) t).map (· + 1) = some n ↔
          IsLeast {n | StopsAt d (c :: t) n} n := by
      subst hd
      rw [Option.map_eq_some_iff, isLeast_succ (mt hzero.mp hnot)]
      simp only [stopsAt_succ, ih, and_comm, eq_comm]
    unfold SQLBracketsWord.findEnd
    split
    case isTrue hc =>
      rw [Int.bmod_add_bmod]
      refine hstep (fun h => ?_) (by rw [if_pos hc])
      rw [h.1] at hc
      exact absurd hc (by decide)
    case isFalse hc =>
      split
      case isTrue hc' =>
        rw [Int.bmod_sub_bmod]
        dsimp only
        split
        case isTrue hstop => rw [isLeast_of_zero (hzero.mpr ⟨hc', hstop⟩), Option.some.injEq, eq_comm]
        case isFalse hstop =>
          refine hstep (fun h => hstop h.2) ?_
          rw [if_neg hc, if_pos hc']
          rfl
      case isFalse hc' =>
        refine hstep (fun h => hc' h.1) ?_
        rw [if_neg hc, if_neg hc', Int.add_zero]

private theorem depth_append (s t : Sql) : depth (s ++ t) = depth s + depth t := by
  induction s with
  | nil => simp [depth]
  | cons c s ih => rw [List.cons_append, depth_cons, depth_cons, ih, Int.add_assoc]

theorem depth_take_succ (hn : n < w.length) :
    depth (w.take n) - 1 ≤ depth (w.take (n + 1)) ∧
      (depth (w.take (n + 1)) < depth (w.take n) → w[n]? = some 41) := by
  rw [List.take_succ_eq_append_getElem hn, depth_append, depth_cons, List.getElem?_eq_getElem hn]
  have hnil : depth [] = 0 := rfl
  rw [hnil]
  split
  · exact ⟨by omega, fun h => by omega⟩
  · split
    case isTrue hc => exact ⟨by omega, fun _ => by rw [hc]⟩
    case isFalse => exact ⟨by omega, fun h => by omega⟩

theorem depth_pos {m : Nat} (hmin : ∀ m ∈ balanced (40 :: t), n ≤ m) (hpos : 0 < m) (hm : m < n)
    (hlength : m ≤ (40 :: t).length) : 0 < depth ((40 :: t).take m) := by
  have hne (k : Nat) (hpos : 0 < k) (hk : k < n) (hlength : k ≤ (40 :: t).length) :
      depth ((40 :: t).take k) ≠ 0 := fun h => absurd (hmin k ⟨hpos, hlength, h⟩) (by omega)
  induction m with
  | zero => cases hpos
  | succ m ih =>
    have hstep := (depth_take_succ (w := 40 :: t) hlength).1
    have hnot := hne (m + 1) hpos hm hlength
    cases m with
    | zero => exact Int.one_pos
    | succ m =>
      have hbefore := ih (Nat.succ_pos m) (Nat.lt_of_succ_lt hm) (Nat.le_of_succ_le hlength)
      omega

theorem stopsAt_iff : StopsAt 1 t k ↔
    (40 :: t)[k + 1]? = some 41 ∧ (depth ((40 :: t).take (k + 2))).bmod (2 ^ 32) ≤ 0 := by
  rw [StopsAt, List.getElem?_cons_succ, List.take_succ_cons, depth_cons, if_pos rfl]

theorem stopsAt_of_isLeast (h : IsLeast (balanced (40 :: t)) n) :
    ∃ k, n = k + 2 ∧ StopsAt 1 t k := by
  obtain ⟨⟨hpos, hlength, hzero⟩, hmin⟩ := h
  obtain ⟨k, rfl⟩ : ∃ k, n = k + 2 := by
    match n with
    | 1 => cases hzero
    | k + 2 => exact ⟨k, rfl⟩
  refine ⟨k, rfl, stopsAt_iff.mpr ⟨?_, by rw [hzero]; decide⟩⟩
  have hbefore := depth_pos (m := k + 1) (fun m hm => hmin hm) (Nat.succ_pos k)
    (Nat.lt_succ_self _) (Nat.le_of_succ_le hlength)
  have hafter : depth ((40 :: t).take (k + 1 + 1)) = 0 := hzero
  exact (depth_take_succ hlength).2 (by omega)

theorem findEnd_iff_isLeast (hwraps : ¬ Wraps (40 :: t)) :
    SQLBracketsWord.findEnd 1 t = some k ↔ IsLeast (balanced (40 :: t)) (k + 2) := by
  have hone : (1 : Int).bmod (2 ^ 32) = 1 := by decide
  have hfind := findEnd_eq_some (t := t) (n := k) (d := 1)
  rw [hone] at hfind
  rw [hfind]
  -- where the search stops, the text is balanced
  have hbalanced {k : Nat} (hstop : StopsAt 1 t k) : ∃ m ∈ balanced (40 :: t), m ≤ k + 2 := by
    by_contra hnone
    obtain ⟨hclose, hle⟩ := stopsAt_iff.mp hstop
    exact hwraps ⟨k + 1, hclose, fun m hm => by
      by_contra hlt
      exact hnone ⟨m, hm, by omega⟩, hle⟩
  constructor
  · rintro ⟨hstop, hfirst⟩
    obtain ⟨m, hm, hle⟩ := hbalanced hstop
    obtain ⟨n, hleast⟩ := exists_isLeast hm
    obtain ⟨i, hi, hstops⟩ := stopsAt_of_isLeast hleast
    have hki := hfirst hstops
    have hmin := hleast.2 hm
    rw [show k + 2 = n by omega]
    exact hleast
  · intro hleast
    obtain ⟨i, hi, hstops⟩ := stopsAt_of_isLeast hleast
    obtain rfl : k = i := by omega
    refine ⟨hstops, fun m hstop => ?_⟩
    obtain ⟨j, hj, hle⟩ := hbalanced hstop
    have hmin := hleast.2 hj
    omega

private theorem bracketsMatch_eq (h : SkipsTo sql w) (hclosed : ¬ OpenComment w) :
    SQLBracketsWord.match sql = .ok (if w.head? = some 40 then
      (SQLBracketsWord.findEnd 1 w.tail).map fun size =>
        (w.tail.take (size % 2 ^ 32), w.tail.drop (size + 1)) else none) := by
  rw [SQLBracketsWord.match, startOf_bind h hclosed]
  split
  case h_1 t =>
    rw [List.head?_cons, if_pos rfl, List.tail_cons]
    cases SQLBracketsWord.findEnd 1 t <;> rfl
  case h_2 hnot =>
    rw [if_neg]
    · rfl
    · cases w with
      | nil => exact nofun
      | cons c t => exact fun hc => hnot t (by rw [Option.some.inj hc])

/-- Brackets are delimited exactly where the comment before them has an end, the counter does not
    wrap around and the text in the brackets fits into its size. -/
theorem bracketsExact_iff (h : SkipsTo sql w) : BracketsExact sql w ↔
    ¬ OpenComment w ∧ (w.head? = some 40 →
      ¬ Wraps w ∧ ∀ n, IsLeast (balanced w) n → n < 2 ^ 32 + 2) := by
  by_cases hclosed : OpenComment w
  case pos =>
    refine iff_of_false ?_ (fun hcond => hcond.1 hclosed)
    rintro ⟨result, hok, -⟩
    exact closed_of_startOf h hok hclosed
  rw [and_iff_right hclosed, BracketsExact, bracketsMatch_eq h hclosed]
  by_cases hhead : w.head? = some 40
  case neg =>
    refine iff_of_true ⟨none, by rw [if_neg hhead], fun value rest => ?_⟩ (fun h => absurd h hhead)
    exact iff_of_false nofun (fun h => hhead h.1)
  obtain ⟨t, rfl⟩ : ∃ t, w = 40 :: t := by
    cases w with
    | nil => cases hhead
    | cons c t => exact ⟨t, by rw [Option.some.inj hhead]⟩
  rw [forall_prop_of_true hhead, if_pos hhead, List.tail_cons]
  constructor
  · rintro ⟨_, ⟨⟩, hexact⟩
    -- a counter that wraps around stops at a bracket before the one that balances
    have hwraps : ¬ Wraps (40 :: t) := by
      rintro ⟨n, hclose, hbefore, hle⟩
      obtain ⟨i, rfl⟩ : ∃ i, n = i + 1 := by
        cases n with
        | zero => cases hclose
        | succ i => exact ⟨i, rfl⟩
      have hstop := stopsAt_iff.mpr ⟨hclose, hle⟩
      obtain ⟨k, hleast⟩ := exists_isLeast hstop
      have hfind := findEnd_eq_some (d := 1).mpr hleast
      have hfirst := hleast.2 hstop
      obtain ⟨-, n, hn, -, hrest⟩ := (hexact _ _).mp (by
        rw [show (1 : Int) = (1 : Int).bmod (2 ^ 32) by decide, hfind]
        rfl)
      have hlt := hbefore n hn.1
      have hi := (List.getElem?_eq_some_iff.mp hclose).1
      have hlength := congrArg List.length hrest
      have hn' := hn.1.2.1
      rw [List.length_drop, List.length_drop, List.length_cons] at hlength
      rw [List.length_cons] at hi hn'
      omega
    -- the size of the value is cut to 32 bits, so a longer text loses its end
    refine ⟨hwraps, fun n hn => ?_⟩
    obtain ⟨k, rfl, -⟩ := stopsAt_of_isLeast hn
    have hvalue := (hexact _ _).mpr ⟨hhead, k + 2, hn, rfl, rfl⟩
    rw [(findEnd_iff_isLeast hwraps).mpr hn] at hvalue
    have htake : t.take (k % 2 ^ 32) = t.take k := congrArg Prod.fst (Option.some.inj hvalue)
    have hlength := congrArg List.length htake
    have hn' := hn.1.2.1
    rw [List.length_take, List.length_take] at hlength
    rw [List.length_cons] at hn'
    omega
  · rintro ⟨hwraps, hsmall⟩
    -- without a wrap the search stops at the least balanced prefix
    refine ⟨_, rfl, fun value rest => ?_⟩
    rw [Option.map_eq_some_iff]
    constructor
    · rintro ⟨k, hk, heq⟩
      have hleast := (findEnd_iff_isLeast hwraps).mp hk
      have hlt := hsmall _ hleast
      cases heq
      refine ⟨rfl, k + 2, hleast, ?_, rfl⟩
      rw [Nat.mod_eq_of_lt (by omega)]
      rfl
    · rintro ⟨-, n, hn, rfl, rfl⟩
      obtain ⟨k, rfl, -⟩ := stopsAt_of_isLeast hn
      have hlt := hsmall _ hn
      refine ⟨k, (findEnd_iff_isLeast hwraps).mpr hn, ?_⟩
      rw [Nat.mod_eq_of_lt (by omega)]
      rfl

theorem skipsTo_of_isSpaceOrComment (h : isSpaceOrComment w = false) : SkipsTo w w :=
  ⟨.refl, atWord_iff.mpr (.inl h)⟩

theorem skipsTo_openComment : SkipsTo [47, 42] [47, 42] :=
  ⟨.refl, OpenComment.atWord ⟨[], rfl, fun k h => by simp [ClosesAt] at h⟩⟩

/-- `(())`. -/
theorem bracketsExact_nested : BracketsExact [40, 40, 41, 41] [40, 40, 41, 41] := by
  have hmem : 4 ∈ balanced [40, 40, 41, 41] := ⟨by decide, by decide, by decide⟩
  refine (bracketsExact_iff (skipsTo_of_isSpaceOrComment rfl)).mpr ⟨by rintro ⟨t, ⟨⟩, -⟩, fun _ => ?_⟩
  refine ⟨?_, fun n hn => hn.1.2.1.trans_lt (by decide)⟩
  rintro ⟨n, hclose, hbefore, hle⟩
  have hlt := hbefore 4 hmem
  obtain rfl | rfl | rfl : n = 0 ∨ n = 1 ∨ n = 2 := by omega
  · cases hclose
  · cases hclose
  · exact absurd hle (by decide)

/-- A comment without an end. -/
theorem not_bracketsExact_openComment : ¬ ∀ sql w, SkipsTo sql w → BracketsExact sql w := by
  intro hall
  obtain ⟨result, hok, -⟩ := hall _ _ skipsTo_openComment
  unfold SQLBracketsWord.match at hok
  rw [startOf_eq skipsTo_openComment] at hok
  cases hok

/-! ## String literals -/

/-- The opening quote stands once more at place `n`, behind an even number of backslashes. -/
def ClosesQuote (w : Sql) (n : Nat) : Prop :=
  0 < n ∧ w[n]? = w.head? ∧ Even ((w.take n).reverse.takeWhile (· = 92)).length

/-- The content with each escape replaced by what it denotes. -/
def decode : Sql → List UInt8
  | 92 :: c :: rest => SQLArrayWord.escaped c :: decode rest
  | c :: rest => c :: decode rest
  | [] => []

def Quoted (w : Sql) : Prop := w.head? = some 39 ∨ w.head? = some 34

/-- `match` returns, and it finds the content up to the first closing quote. -/
def ArrayExact (sql w : Sql) : Prop :=
  ∃ result, SQLArrayWord.match sql = .ok result ∧ ∀ value rest, result = some (value, rest) ↔
    Quoted w ∧ ∃ n, IsLeast {n | ClosesQuote w n} n ∧ value = decode (w.take n).tail ∧
      rest = w.drop (n + 1)

theorem arrayFindEnd_eq_some {quote : UInt8} {before : Sql} :
    SQLArrayWord.findEnd quote before t = some n ↔ IsLeast {n | t[n]? = some quote ∧
      SQLArrayWord.escapeCount ((t.take n).reverse ++ before) % 2 = 1} n := by
  induction t generalizing before n with
  | nil => simp [SQLArrayWord.findEnd, IsLeast]
  | cons c t ih =>
    rw [SQLArrayWord.findEnd]
    split
    case isTrue hends =>
      rw [isLeast_of_zero (by simpa using hends), Option.some.injEq, eq_comm]
    case isFalse hends =>
      rw [Option.map_eq_some_iff, isLeast_succ (by simpa using hends)]
      simp only [ih, List.getElem?_cons_succ, List.take_succ_cons, List.reverse_cons,
        List.append_assoc, List.singleton_append, and_comm, eq_comm]

theorem decode_eq_self (h : 92 ∉ t) : decode t = t := by
  induction t using decode.induct with
  | case1 => simp at h
  | case2 c t _ ih => rw [decode, ih (List.not_mem_of_not_mem_cons h)]; assumption
  | case3 => rfl

theorem valueOf_eq_decode_iff (h : n ≤ t.length) :
    SQLArrayWord.valueOf t n = .ok (decode (t.take n)) ↔ 92 ∉ t.take n ∧ n < 2 ^ 32 := by
  unfold SQLArrayWord.valueOf
  split
  case isTrue hescape =>
    refine iff_of_false (fun heq => ?_) (fun hplain => hplain.1 hescape)
    dsimp only at heq
    -- neither a length that is no length nor a buffer that is deleted is a value
    split at heq <;> cases heq
  case isFalse hescape =>
    rw [decode_eq_self hescape, and_iff_right hescape]
    constructor
    · intro heq
      have hsize := congrArg List.length (Except.ok.inj heq)
      rw [List.length_take, List.length_take] at hsize
      omega
    · intro hlt
      rw [Nat.mod_eq_of_lt hlt]
      rfl

theorem arrayMatch_of_not_quoted (h : SkipsTo sql w) (hclosed : ¬ OpenComment w)
    (hquoted : ¬ Quoted w) : SQLArrayWord.match sql = .ok none := by
  rw [SQLArrayWord.match, startOf_bind h hclosed]
  cases w with
  | nil => rfl
  | cons quote t => exact if_neg (by simpa [Quoted] using hquoted)

theorem arrayMatch_quoted {quote : UInt8} (h : SkipsTo sql (quote :: t))
    (hclosed : ¬ OpenComment (quote :: t)) (hquote : quote = 39 ∨ quote = 34) :
    SQLArrayWord.match sql = match SQLArrayWord.findEnd quote [quote] t with
      | none => .ok none
      | some size => (SQLArrayWord.valueOf t size).map fun value =>
        some (value, t.drop (size + 1)) := by
  rw [SQLArrayWord.match, startOf_bind h hclosed]
  refine (if_pos hquote).trans ?_
  cases SQLArrayWord.findEnd quote [quote] t with
  | none => rfl
  | some size => cases hvalue : SQLArrayWord.valueOf t size <;> simp [hvalue] <;> rfl

theorem isLeast_closesQuote {quote : UInt8} : IsLeast {n | ClosesQuote (quote :: t) n} n ↔
    ∃ k, n = k + 1 ∧ SQLArrayWord.findEnd quote [quote] t = some k := by
  rw [isLeast_succ (fun h => absurd h.1 (Nat.lt_irrefl 0))]
  simp only [arrayFindEnd_eq_some, ClosesQuote, Nat.succ_pos, true_and, List.getElem?_cons_succ,
    List.head?_cons, List.take_succ_cons, List.reverse_cons, SQLArrayWord.escapeCount,
    Nat.even_iff, Nat.succ_mod_two_eq_one_iff]

/-- String literals are read exactly where the comment before them has an end and their content
    has no backslash: the value of a content with one is in a buffer that was deleted. -/
theorem arrayExact_iff (h : SkipsTo sql w) : ArrayExact sql w ↔
    ¬ OpenComment w ∧ (Quoted w → ∀ n, IsLeast {n | ClosesQuote w n} n →
      92 ∉ (w.take n).tail ∧ n < 2 ^ 32 + 1) := by
  by_cases hclosed : OpenComment w
  case pos =>
    refine iff_of_false ?_ (fun hcond => hcond.1 hclosed)
    rintro ⟨result, hok, -⟩
    exact closed_of_startOf h hok hclosed
  rw [and_iff_right hclosed, ArrayExact]
  by_cases hquoted : Quoted w
  case neg =>
    refine iff_of_true ⟨none, arrayMatch_of_not_quoted h hclosed hquoted, fun value rest => ?_⟩
      (fun h => absurd h hquoted)
    exact iff_of_false nofun (fun h => hquoted h.1)
  rw [forall_prop_of_true hquoted]
  obtain ⟨quote, t, rfl, hquote⟩ : ∃ quote t, w = quote :: t ∧ (quote = 39 ∨ quote = 34) := by
    cases w with
    | nil => simp [Quoted] at hquoted
    | cons quote t => exact ⟨quote, t, rfl, by simpa [Quoted] using hquoted⟩
  rw [arrayMatch_quoted h hclosed hquote]
  simp only [isLeast_closesQuote]
  cases hend : SQLArrayWord.findEnd quote [quote] t with
  | none =>
    refine iff_of_true ⟨none, rfl, fun value rest => iff_of_false nofun ?_⟩ ?_
    · rintro ⟨-, _, ⟨k, rfl, hk⟩, -⟩
      cases hk
    · rintro _ ⟨k, rfl, hk⟩
      cases hk
  | some size =>
    have hsize := (List.getElem?_eq_some_iff.mp (arrayFindEnd_eq_some.mp hend).1.1).1
    have hiff := valueOf_eq_decode_iff hsize.le
    have hcond (n : Nat) : (∃ k, n = k + 1 ∧ some size = some k) ↔ n = size + 1 := by simp
    simp only [hcond, forall_eq, exists_eq_left, List.take_succ_cons, List.tail_cons,
      Nat.add_lt_add_iff_right, List.drop_succ_cons]
    rw [← hiff]
    constructor
    · rintro ⟨result, hok, hexact⟩
      obtain ⟨value, hvalue, rfl⟩ : ∃ value, SQLArrayWord.valueOf t size = .ok value ∧
          some (value, t.drop (size + 1)) = result := by
        cases hvalue : SQLArrayWord.valueOf t size with
        | error e =>
          rw [hvalue] at hok
          cases hok
        | ok value =>
          rw [hvalue] at hok
          exact ⟨value, rfl, Except.ok.inj hok⟩
      rw [hvalue, ((hexact _ _).mp rfl).2.1]
    · intro hvalue
      rw [hvalue]
      refine ⟨_, rfl, fun value rest => ?_⟩
      rw [Option.some.injEq, Prod.mk.injEq, and_iff_right hquoted, eq_comm, @eq_comm _ rest]

/-- `"a'b"`. -/
theorem arrayExact_double : ArrayExact [34, 97, 39, 98, 34] [34, 97, 39, 98, 34] := by
  refine (arrayExact_iff (skipsTo_of_isSpaceOrComment rfl)).mpr ⟨by rintro ⟨t, ⟨⟩, -⟩, fun _ n hn => ?_⟩
  obtain ⟨k, rfl, hk⟩ := isLeast_closesQuote.mp hn
  have hthree : SQLArrayWord.findEnd 34 [34] [97, 39, 98, 34] = some 3 := by decide
  obtain rfl := Option.some.inj (hk.symm.trans hthree)
  decide

/-- `'\na'`, whose value is freed. -/
theorem not_arrayExact_newline : ¬ ∀ sql w, SkipsTo sql w → ArrayExact sql w := by
  intro hall
  obtain ⟨result, hok, hexact⟩ := hall [39, 92, 110, 97, 39] _ (skipsTo_of_isSpaceOrComment rfl)
  obtain rfl := (hexact [10, 97] []).mpr
    ⟨.inl rfl, 4, isLeast_closesQuote.mpr ⟨3, rfl, by decide⟩, by decide, rfl⟩
  exact absurd hok (by decide)

/-! ## Integer literals -/

open SQLIntNumberWord

/-- The number that digits denote. -/
def number (digits : Sql) : Nat := digits.foldl (fun v c => v * 10 + (c.toNat - 48)) 0

/-- What may follow a number: nothing, a blank or a key character but the point. -/
def EndsNumber (rest : Sql) : Prop :=
  rest = [] ∨ isSpaceOrComment rest = true ∨ ∃ c ∈ rest.head?, isKeyChar c = true ∧ c ≠ 46

/-- `w` is a literal for `value`, and `rest` follows. -/
def IsInt (w : Sql) (value : Int) (rest : Sql) : Prop :=
  ∃ sign blanks digits, w = sign ++ blanks ++ digits ++ rest ∧
    (sign = [] ∧ blanks = [] ∨ sign = [43] ∨ sign = [45]) ∧ (∀ c ∈ blanks, c = 32) ∧
    digits ≠ [] ∧ (∀ c ∈ digits, isDigit c = true) ∧ EndsNumber rest ∧
    value = (if sign = [45] then -(number digits : Int) else number digits) ∧
    -2 ^ 63 ≤ value ∧ value < 2 ^ 63

/-- `match` returns, and it finds the literals. -/
def IntExact (sql w : Sql) : Prop :=
  ∃ result, SQLIntNumberWord.match sql = .ok result ∧
    ∀ value rest, result = some (value, rest) ↔ IsInt w value rest

/-- The `int64_t` that the loop has behind some digits. -/
def accumulated (digits : Sql) : Int := (number digits : Int).bmod (2 ^ 64)

/-- One of the digits makes the `int64_t` less that is there behind `before`. -/
def Shrinks (before digits : Sql) : Prop :=
  ∃ k < digits.length,
    accumulated (before ++ digits.take (k + 1)) < accumulated (before ++ digits.take k)

theorem number_concat (t : Sql) (c : UInt8) :
    number (t ++ [c]) = number t * 10 + (c.toNat - 48) := by simp [number]

theorem number_take_le (k : Nat) : number (t.take k) ≤ number t := by
  induction t using List.reverseRecOn with
  | nil => simp
  | append_singleton t c ih =>
    rw [number_concat, List.take_append]
    obtain hk | hk := Nat.eq_zero_or_pos (k - t.length)
    · rw [hk, List.take_zero, List.append_nil]
      omega
    · rw [List.take_of_length_le (by omega), List.take_of_length_le (l := [c]) hk, number_concat]

theorem accumulated_eq (h : number t < 2 ^ 63) : accumulated t = number t :=
  Int.bmod_eq_of_le (by omega) (by omega)

theorem not_shrinks (h : number t < 2 ^ 63) : ¬ Shrinks [] t := by
  rintro ⟨k, hk, hlt⟩
  have htake := List.take_succ_eq_append_getElem hk
  have hle := number_take_le (t := t) (k + 1)
  rw [htake, number_concat] at hle
  rw [List.nil_append, List.nil_append, accumulated_eq (by rw [htake, number_concat]; omega),
    accumulated_eq (by omega), htake, number_concat] at hlt
  omega

theorem accumulated_concat (hc : isDigit c = true) :
    accumulated (s ++ [c]) = (accumulated s * 10 + (c.toNat - 48)).bmod (2 ^ 64) := by
  have hle : 48 ≤ c.toNat := UInt8.le_iff_toNat_le.mp (of_decide_eq_true hc).1
  have hsum : ((number (s ++ [c]) : Nat) : Int) = number s * 10 + (c.toNat - 48) := by
    rw [number_concat]
    omega
  unfold accumulated
  rw [hsum, ← Int.bmod_add_bmod, ← Int.bmod_mul_bmod, Int.bmod_add_bmod]

theorem shrinks_cons : Shrinks s (c :: t) ↔
    accumulated (s ++ [c]) < accumulated s ∨ Shrinks (s ++ [c]) t := by
  rw [Shrinks, List.length_cons, Nat.exists_lt_succ_left]
  simp only [Shrinks, List.take_succ_cons, List.take_zero, List.append_nil, List.append_assoc,
    List.singleton_append]

/-- The loop stops where a digit makes its value less, and goes to the end of the digits if none
    does. -/
theorem readDigits_eq_some {v : Int} {rest : Sql} :
    readDigits (accumulated s) t = some (v, rest) ↔ ¬ Shrinks s (t.takeWhile isDigit) ∧
      v = accumulated (s ++ t.takeWhile isDigit) ∧ rest = t.dropWhile isDigit := by
  induction t generalizing s with
  | nil => simp [readDigits, Shrinks, eq_comm]
  | cons c t ih =>
    rw [readDigits, List.takeWhile_cons, List.dropWhile_cons]
    split
    case isTrue hc =>
      rw [← accumulated_concat hc, shrinks_cons]
      dsimp only
      split
      case isTrue hlt => exact iff_of_false nofun (fun h => h.1 (.inl hlt))
      case isFalse hlt =>
        rw [ih, or_iff_right hlt, List.append_assoc, List.singleton_append]
    case isFalse hc => simp [Shrinks, eq_comm]

theorem exists_readSign (w : Sql) : ∃ sign blanks, w = sign ++ blanks ++ (readSign w).2 ∧
    (sign = [] ∧ blanks = [] ∨ sign = [43] ∨ sign = [45]) ∧ (∀ c ∈ blanks, c = 32) ∧
    (readSign w).1 = decide (sign ≠ [45]) := by
  have hblanks (t : Sql) : ∀ c ∈ t.takeWhile (· = 32), c = 32 := fun c hc => by
    simpa using List.mem_takeWhile_imp hc
  unfold readSign
  split
  case h_1 t => exact ⟨[45], t.takeWhile (· = 32), by simp, by simp, hblanks t, by simp⟩
  case h_2 t => exact ⟨[43], t.takeWhile (· = 32), by simp, by simp, hblanks t, by simp⟩
  case h_3 => exact ⟨[], [], by simp⟩

theorem readSign_append {sign blanks digits : Sql}
    (hsign : sign = [] ∧ blanks = [] ∨ sign = [43] ∨ sign = [45]) (hblanks : ∀ c ∈ blanks, c = 32)
    (hne : digits ≠ []) (hdigits : ∀ c ∈ digits, isDigit c = true) :
    readSign (sign ++ blanks ++ digits ++ t) = (decide (sign ≠ [45]), digits ++ t) := by
  obtain ⟨c, digits, rfl⟩ := List.exists_cons_of_ne_nil hne
  have hc := hdigits c (List.mem_cons_self ..)
  have hdrop : (blanks ++ (c :: digits ++ t)).dropWhile (· = 32) = c :: digits ++ t := by
    rw [List.dropWhile_append_of_pos (by simpa using hblanks), List.cons_append,
      List.dropWhile_cons_of_neg]
    rintro h
    rw [of_decide_eq_true h] at hc
    exact absurd hc (by decide)
  obtain ⟨rfl, rfl⟩ | rfl | rfl := hsign
  · show readSign (c :: (digits ++ t)) = _
    unfold readSign
    split
    case h_1 heq => rw [(List.cons.inj heq).1] at hc; exact absurd hc (by decide)
    case h_2 heq => rw [(List.cons.inj heq).1] at hc; exact absurd hc (by decide)
    case h_3 => rfl
  · rw [List.append_assoc, List.append_assoc]
    exact congrArg (Prod.mk true) hdrop
  · rw [List.append_assoc, List.append_assoc]
    exact congrArg (Prod.mk false) hdrop

theorem EndsNumber.dropWhile_eq (h : EndsNumber t) : t.dropWhile isDigit = t ∧ t.takeWhile isDigit = [] := by
  cases t with
  | nil => exact ⟨rfl, rfl⟩
  | cons c t =>
    have hc : ¬ isDigit c = true := by
      intro hdigit
      obtain h | h | ⟨_, ⟨⟩, hkey, -⟩ := h
      · cases h
      · simp only [isSpaceOrComment, isSpace, Bool.or_eq_true, Bool.and_eq_true, beq_iff_eq,
          decide_eq_true_eq] at h
        obtain (rfl | rfl | rfl | rfl) | ⟨rfl, -⟩ := h <;> exact absurd hdigit (by decide)
      · have hall : ([46, 96, 39, 34, 43, 45, 42, 47, 37, 38, 124, 126, 94, 40, 41, 123, 125, 61, 62,
            60, 59, 44, 91, 93].map UInt8.ofNat).all (fun c => !isDigit c) = true := rfl
        have hnot := List.all_eq_true.mp hall c (of_decide_eq_true hkey)
        rw [hdigit] at hnot
        cases hnot
    exact ⟨List.dropWhile_cons_of_neg hc, List.takeWhile_cons_of_neg hc⟩

theorem isInt_iff {value : Int} {rest : Sql} : IsInt w value rest ↔
    (readSign w).2.takeWhile isDigit ≠ [] ∧ EndsNumber rest ∧
      rest = (readSign w).2.dropWhile isDigit ∧
      value = (if (readSign w).1 then (number ((readSign w).2.takeWhile isDigit) : Int)
        else -number ((readSign w).2.takeWhile isDigit)) ∧ -2 ^ 63 ≤ value ∧ value < 2 ^ 63 := by
  constructor
  · rintro ⟨sign, blanks, digits, rfl, hsign, hblanks, hne, hdigits, hends, hvalue, hrange⟩
    rw [readSign_append hsign hblanks hne hdigits, List.takeWhile_append_of_pos hdigits,
      List.dropWhile_append_of_pos hdigits, hends.dropWhile_eq.1, hends.dropWhile_eq.2,
      List.append_nil]
    refine ⟨hne, hends, rfl, hvalue.trans ?_, hrange⟩
    by_cases h : sign = [45] <;> simp [h]
  · rintro ⟨hne, hends, rfl, hvalue, hrange⟩
    obtain ⟨sign, blanks, hw, hsign, hblanks, hpos⟩ := exists_readSign w
    refine ⟨sign, blanks, _, ?_, hsign, hblanks, hne, fun c hc => List.mem_takeWhile_imp hc, hends,
      hvalue.trans ?_, hrange⟩
    · rw [List.append_assoc, List.takeWhile_append_dropWhile]
      exact hw
    · by_cases h : sign = [45] <;> simp [h, hpos]

theorem endsAt_iff (hw : isSpaceOrComment w = false) :
    endsAt w t = true ↔ EndsNumber t ∧ t ≠ w := by
  unfold endsAt EndsNumber
  split
  case h_1 => simp
  case h_2 c t =>
    split
    case isTrue hkey =>
      rw [decide_eq_true_eq]
      constructor
      · exact fun h => ⟨.inr (.inr ⟨c, rfl, hkey, h.2⟩), h.1⟩
      · rintro ⟨h, hne⟩
        refine ⟨hne, ?_⟩
        rintro rfl
        obtain h | h | ⟨_, ⟨⟩, -, hpoint⟩ := h
        · cases h
        · cases h
        · exact hpoint rfl
    case isFalse hkey =>
      constructor
      · intro h
        refine ⟨.inr (.inl h), ?_⟩
        rintro rfl
        rw [hw] at h
        cases h
      · rintro ⟨h | h | ⟨_, ⟨⟩, hkeyChar, -⟩, -⟩
        · cases h
        · exact h
        · exact absurd hkeyChar hkey

theorem intMatch_eq_ok (h : SkipsTo sql w) (hclosed : ¬ OpenComment w) :
    ∃ result, SQLIntNumberWord.match sql = .ok result ∧
      ∀ value rest, result = some (value, rest) ↔
        ¬ Shrinks [] ((readSign w).2.takeWhile isDigit) ∧ endsAt w rest = true ∧
          rest = (readSign w).2.dropWhile isDigit ∧
          value = (if (readSign w).1 then accumulated ((readSign w).2.takeWhile isDigit)
            else -accumulated ((readSign w).2.takeWhile isDigit)) := by
  rw [SQLIntNumberWord.match, startOf_bind h hclosed]
  obtain ⟨sign, n⟩ := readSign w
  have hdigits {v : Int} {rest : Sql} := @readDigits_eq_some [] n v rest
  have hzero : accumulated [] = 0 := by decide
  rw [hzero] at hdigits
  dsimp only
  cases hread : readDigits 0 n with
  | none =>
    refine ⟨none, rfl, fun value rest => iff_of_false nofun ?_⟩
    rintro ⟨hshrinks, -, hrest, -⟩
    rw [hdigits.mpr ⟨hshrinks, rfl, hrest⟩] at hread
    cases hread
  | some p =>
    obtain ⟨v, end'⟩ := p
    obtain ⟨hshrinks, hv, hend⟩ := hdigits.mp hread
    rw [List.nil_append] at hv
    refine ⟨_, rfl, fun value rest => ?_⟩
    rw [and_iff_right hshrinks, ← hv, ← hend]
    split
    case isTrue hends =>
      rw [Option.some.injEq, Prod.mk.injEq]
      constructor
      · rintro ⟨rfl, rfl⟩
        exact ⟨hends, rfl, rfl⟩
      · rintro ⟨-, rfl, rfl⟩
        exact ⟨rfl, rfl⟩
    case isFalse hends =>
      refine iff_of_false nofun ?_
      rintro ⟨hat, rfl, -⟩
      exact hends hat

/-- A number can be read as it is: a sign without digits is not taken for a number, and a number
    that does not fit is seen to overflow, but is not the least one. -/
def IntReadable (w : Sql) : Prop :=
  let n := (readSign w).2
  let digits := n.takeWhile isDigit
  EndsNumber (n.dropWhile isDigit) →
    if digits = [] then n = w
    else number digits < 2 ^ 63 ∨
      Shrinks [] digits ∧ ((readSign w).1 = false → number digits ≠ 2 ^ 63)

/-- Integer literals are read exactly where the comment before them has an end and the number can
    be read. -/
theorem intExact_iff (h : SkipsTo sql w) : IntExact sql w ↔ ¬ OpenComment w ∧ IntReadable w := by
  by_cases hclosed : OpenComment w
  case pos =>
    refine iff_of_false ?_ (fun hcond => hcond.1 hclosed)
    rintro ⟨result, hok, -⟩
    exact closed_of_startOf h hok hclosed
  have hw : isSpaceOrComment w = false := (atWord_iff.mp h.atWord).resolve_right hclosed
  obtain ⟨result, hok, hresult⟩ := intMatch_eq_ok h hclosed
  have hexact : IntExact sql w ↔ ∀ value rest, result = some (value, rest) ↔ IsInt w value rest := by
    constructor
    · rintro ⟨result', hok', hexact⟩
      rw [hok] at hok'
      rwa [Except.ok.inj hok']
    · exact fun hexact => ⟨result, hok, hexact⟩
  -- the code answers "no number" only where it has read neither a sign nor a digit
  have hwhole : (readSign w).2.dropWhile isDigit = w ↔
      (readSign w).2.takeWhile isDigit = [] ∧ (readSign w).2 = w := by
    have happend := List.takeWhile_append_dropWhile (p := isDigit) (l := (readSign w).2)
    constructor
    · intro h
      obtain ⟨sign, blanks, hsplit, -⟩ := exists_readSign w
      have hlength := congrArg List.length hsplit
      have hdigits := congrArg List.length happend
      rw [List.length_append] at hlength hdigits
      rw [h] at hdigits
      have hnil : (readSign w).2.takeWhile isDigit = [] := List.length_eq_zero_iff.mp (by omega)
      rw [hnil, List.nil_append] at happend
      exact ⟨hnil, happend.symm.trans h⟩
    · rintro ⟨hnil, hn⟩
      rw [hnil, List.nil_append] at happend
      exact happend.trans hn
  rw [and_iff_right hclosed, hexact]
  simp only [hresult, isInt_iff, endsAt_iff hw, IntReadable]
  generalize (readSign w).2.takeWhile isDigit = digits at hwhole
  generalize (readSign w).2.dropWhile isDigit = tail at hwhole
  generalize (readSign w).1 = sign
  by_cases hends : EndsNumber tail
  -- what follows the digits ends no number: neither side has a literal
  case neg =>
    refine iff_of_true (fun value rest => iff_of_false ?_ ?_) (fun h => absurd h hends)
    · rintro ⟨-, ⟨hat, -⟩, rfl, -⟩
      exact hends hat
    · rintro ⟨-, hat, rfl, -⟩
      exact hends hat
  rw [forall_prop_of_true hends]
  by_cases hnil : digits = []
  -- no digit: a sign alone would be taken for a number
  · rw [if_pos hnil]
    constructor
    · intro hall
      by_contra hn
      have hsigned := (hall _ tail).mp ⟨by simp [hnil, Shrinks], ⟨hends, fun h => hn (hwhole.mp h).2⟩,
        rfl, rfl⟩
      exact hsigned.1 hnil
    · rintro hn value rest
      refine iff_of_false ?_ (fun h => h.1 hnil)
      rintro ⟨-, ⟨-, hne⟩, rfl, -⟩
      exact hne (hwhole.mpr ⟨hnil, hn⟩)
  · rw [if_neg hnil]
    have htail : tail ≠ w := fun h => hnil (hwhole.mp h).1
    -- from 2^63 on the test for an overflow has to see it, and -2^63 is refused as well
    obtain hlt | hge := Nat.lt_or_ge (number digits) (2 ^ 63)
    · refine iff_of_true (fun value rest => ?_) (.inl hlt)
      rw [accumulated_eq hlt]
      constructor
      · rintro ⟨-, -, rfl, rfl⟩
        refine ⟨hnil, hends, rfl, rfl, ?_⟩
        split <;> omega
      · rintro ⟨-, -, rfl, rfl, -⟩
        exact ⟨not_shrinks hlt, ⟨hends, htail⟩, rfl, rfl⟩
    · rw [or_iff_right (by omega)]
      constructor
      · intro hall
        have hshrinks : Shrinks [] digits := by
          by_contra hnot
          have hvalue := ((hall _ tail).mp ⟨hnot, ⟨hends, htail⟩, rfl, rfl⟩).2.2.2.1
          have hbound : accumulated digits < 2 ^ 63 := Int.bmod_lt (by decide)
          split at hvalue <;> omega
        refine ⟨hshrinks, ?_⟩
        rintro rfl heq
        exact ((hall (-2 ^ 63) tail).mpr ⟨hnil, hends, rfl, by simp [heq], by omega, by omega⟩).1 hshrinks
      · rintro ⟨hshrinks, hleast⟩ value rest
        refine iff_of_false (fun h => h.1 hshrinks) ?_
        rintro ⟨-, -, -, rfl, hlow, hhigh⟩
        cases sign with
        | true => simp only [if_true] at hhigh; omega
        | false =>
          have hnot := hleast rfl
          simp only [Bool.false_eq_true, if_false] at hlow
          omega

/-- `-12 `. -/
theorem intExact_negative : IntExact [45, 49, 50, 32] [45, 49, 50, 32] := by
  refine (intExact_iff (skipsTo_of_isSpaceOrComment rfl)).mpr ⟨by rintro ⟨t, ⟨⟩, -⟩, fun _ => ?_⟩
  rw [if_neg (by decide)]
  exact .inl (by decide)

/-- `+`, which is read as 0. -/
theorem not_intExact_plus : ¬ ∀ sql w, SkipsTo sql w → IntExact sql w := by
  intro hall
  obtain ⟨result, hok, hexact⟩ := hall [43] _ (skipsTo_of_isSpaceOrComment rfl)
  have hmatch : SQLIntNumberWord.match [43] = .ok (some (0, [])) := by decide
  obtain rfl := Except.ok.inj (hmatch.symm.trans hok)
  exact (isInt_iff.mp ((hexact 0 []).mp rfl)).1 (by decide)

end DBStream.Native.SQL_PARSER
