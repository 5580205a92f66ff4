import DBStream.Native.SqlLoader
import Mathlib.Data.List.ProdSigma
import Mathlib.Data.List.Infix
import Mathlib.Data.List.Perm.Subperm

/-!
# When a match of the SQL parser ends

A watched match does what `match` does, but it stops at the first step that goes wrong: a blank or
a word that does not come to an end, an array that is entered once more at the position at which it
is already being matched, and a loop that goes on at the position at which its iteration began.  A
text has finitely many positions and a parse tree finitely many arrays, so a watched match always
stops; and when it stops at a step that goes wrong, `match` itself does not return.
-/

namespace DBStream.Native.SQL_PARSER

variable {P : Type}

/-! ## Watched matches -/

/-- The steps that go wrong. -/
inductive Stall where
  | hang
  | reentry
  | idle
  deriving DecidableEq

namespace SQLWordArray

variable (a : SQLWordArray P) (tree : ParseTree P)
  (watch : SQLWord P → Sql → Option (Except Stall (Option Sql)))

/-- The `for` over `m_words`, watched: the position and whether the last word has matched. -/
def watchWords : List (SQLWord P) → Sql → Bool → Option (Except Stall (Sql × Bool))
  | [], sql, matched => some (.ok (sql, matched))
  | s :: rest, sql, _ =>
    match nextWord sql with
    | none => some (.error .hang)
    | some str =>
      match watch s str with
      | none => none
      | some (.error e) => some (.error e)
      | some (.ok (some next)) =>
        if a.m_or then some (.ok (next, true)) else watchWords rest next true
      | some (.ok none) =>
        if a.m_or then watchWords rest sql false
        else if s.m_optional tree then watchWords rest sql true
        else some (.ok (sql, false))

/-- The `do` loop, watched: the position behind the array, if it matches. -/
def watchLoop : Nat → Bool → Option Sql → Sql → Option (Except Stall (Option Sql))
  | 0, _, _, _ => none
  | fuel + 1, again, beforeLoop, sql =>
    match a.watchWords tree watch a.m_words sql true with
    | none => none
    | some (.error e) => some (.error e)
    | some (.ok (next, false)) =>
      some (.ok (if a.m_loop ∧ again then some (beforeLoop.getD next) else none))
    | some (.ok (next, true)) =>
      if ¬a.m_loop then some (.ok (some next))
      else
        match a.m_loopCondition with
        | none =>
          if next = sql then some (.error .idle) else watchLoop fuel true beforeLoop next
        | some condition =>
          match nextWord next with
          | none => some (.error .hang)
          | some str =>
            match condition.match str with
            | none => some (.error .hang)
            | some (_, none) => some (.ok (some next))
            | some (_, some goOn) =>
              if goOn = sql then some (.error .idle) else watchLoop fuel true (some next) goOn

end SQLWordArray

/-- `match`, watched: the position behind the word, if it matches.  The stack holds the arrays that
are being matched, with the positions at which they were entered. -/
def SQLWord.watch (tree : ParseTree P) :
    Nat → List (Nat × Sql) → SQLWord P → Sql → Option (Except Stall (Option Sql))
  | 0, _, _, _ => none
  | _ + 1, _, .single w, sql =>
    match w.match sql with
    | none => some (.error .hang)
    | some (_, next) => some (.ok next)
  | fuel + 1, stack, .array place, sql =>
    if (place, sql) ∈ stack then some (.error .reentry)
    else
      (tree place).watchLoop tree (SQLWord.watch tree fuel ((place, sql) :: stack)) fuel false none
        sql

/-- No step of a match goes wrong. -/
def GoesOn (tree : ParseTree P) (place : Nat) (sql : Sql) : Prop :=
  ∀ fuel e, (SQLWord.array place).watch tree fuel [] sql ≠ some (.error e)

def Returns (tree : ParseTree P) (place : Nat) (h : List (StatusInfo P)) (sql : Sql) : Prop :=
  ∃ n, ∀ fuel ≥ n, ((SQLWord.array place).match tree fuel h sql).isSome

/-! ## More fuel -/

section Mono

variable {a : SQLWordArray P} {tree : ParseTree P}
  {matchWord matchWord' : SQLWord P → List (StatusInfo P) → Sql → Option (MatchState P)}
  {st st' : MatchState P}

theorem matchWords_mono
    (hword : ∀ s h str st, matchWord s h str = some st → matchWord' s h str = some st)
    (words : List (SQLWord P)) (h : a.matchWords tree matchWord words st = some st') :
    a.matchWords tree matchWord' words st = some st' := by
  induction words generalizing st with
  | nil => exact h
  | cons s rest ih =>
    unfold SQLWordArray.matchWords at h ⊢
    simp only [Option.bind_eq_bind, Option.bind_eq_some_iff] at h ⊢
    obtain ⟨str, hstr, sub, hsub, hrest⟩ := h
    refine ⟨str, hstr, sub, hword _ _ _ _ hsub, ?_⟩
    split_ifs at hrest ⊢
    · exact hrest
    · exact ih hrest
    · exact ih hrest
    · exact ih hrest
    · exact hrest

theorem matchLoop_mono
    (hword : ∀ s h str st, matchWord s h str = some st → matchWord' s h str = some st)
    {fuel fuel' : Nat} (hle : fuel ≤ fuel') {again : Bool} {beforeLoop : Option Sql}
    (h : a.matchLoop tree matchWord fuel again beforeLoop st = some st') :
    a.matchLoop tree matchWord' fuel' again beforeLoop st = some st' := by
  induction fuel generalizing fuel' again beforeLoop st with
  | zero => simp [SQLWordArray.matchLoop] at h
  | succ fuel ih =>
    obtain ⟨fuel', rfl⟩ : ∃ k, fuel' = k + 1 := ⟨fuel' - 1, by omega⟩
    have hle' : fuel ≤ fuel' := Nat.le_of_succ_le_succ hle
    unfold SQLWordArray.matchLoop at h ⊢
    simp only [Option.bind_eq_bind, Option.bind_eq_some_iff] at h ⊢
    obtain ⟨it, hit, hrest⟩ := h
    refine ⟨it, matchWords_mono hword a.m_words hit, ?_⟩
    cases hm : it.matched with
    | false => simpa [hm] using hrest
    | true =>
      cases hloop : a.m_loop with
      | false => simpa [hm, hloop] using hrest
      | true =>
        simp only [hm, not_true_eq_false, if_false, if_true, hloop] at hrest ⊢
        cases hcond : a.m_loopCondition with
        | none =>
          simp only [hcond] at hrest ⊢
          exact ih hle' hrest
        | some condition =>
          simp only [hcond, Option.bind_eq_some_iff] at hrest ⊢
          obtain ⟨str, hstr, ⟨values, next⟩, hnext, hrest⟩ := hrest
          refine ⟨str, hstr, (values, next), hnext, ?_⟩
          cases next with
          | none => exact hrest
          | some sql => exact ih hle' hrest

theorem match_mono {fuel fuel' : Nat} (hle : fuel ≤ fuel') {w : SQLWord P}
    {h : List (StatusInfo P)} {sql : Sql} (hmatch : w.match tree fuel h sql = some st) :
    w.match tree fuel' h sql = some st := by
  induction fuel generalizing fuel' w h sql st with
  | zero => simp [SQLWord.match] at hmatch
  | succ fuel ih =>
    obtain ⟨fuel', rfl⟩ : ∃ k, fuel' = k + 1 := ⟨fuel' - 1, by omega⟩
    have hle' : fuel ≤ fuel' := Nat.le_of_succ_le_succ hle
    cases w with
    | single w => exact hmatch
    | array place =>
      unfold SQLWord.match at hmatch ⊢
      simp only [Option.bind_eq_bind, Option.bind_eq_some_iff] at hmatch ⊢
      obtain ⟨it, hit, hrest⟩ := hmatch
      exact ⟨it, matchLoop_mono (fun s h str st hst => ih hle' hst) hle' hit, hrest⟩

theorem returns_of_match {place fuel : Nat} {h : List (StatusInfo P)} {sql : Sql}
    (hmatch : (SQLWord.array place).match tree fuel h sql = some st) :
    Returns tree place h sql :=
  ⟨fuel, fun fuel' hle => by rw [match_mono hle hmatch]; rfl⟩

end Mono

/-! ## What a watched match finds -/

section Watched

variable {a : SQLWordArray P} {tree : ParseTree P}
  {matchWord : SQLWord P → List (StatusInfo P) → Sql → Option (MatchState P)}
  {watch : SQLWord P → Sql → Option (Except Stall (Option Sql))}

/-- What `match` does with a word that a watched match has found to end. -/
def Ends (matchWord : SQLWord P → List (StatusInfo P) → Sql → Option (MatchState P))
    (s : SQLWord P) (str : Sql) (next : Option Sql) : Prop :=
  ∀ h, ∃ st, matchWord s h str = some st ∧ st.matched = next.isSome ∧
    ∀ sql, next = some sql → st.sql = sql

/-- Words that are watched to their end are matched as watched. -/
theorem matchWords_of_watch
    (hword : ∀ s str next, watch s str = some (.ok next) → Ends matchWord s str next)
    {words : List (SQLWord P)} {sql next : Sql} {m m' : Bool}
    (h : a.watchWords tree watch words sql m = some (.ok (next, m'))) (ss : List (StatusInfo P)) :
    ∃ ss', a.matchWords tree matchWord words ⟨ss, sql, m⟩ = some ⟨ss', next, m'⟩ := by
  induction words generalizing sql m ss with
  | nil =>
    obtain ⟨rfl, rfl⟩ := h
    exact ⟨ss, rfl⟩
  | cons s rest ih =>
    unfold SQLWordArray.watchWords at h
    unfold SQLWordArray.matchWords
    cases hstr : nextWord sql with
    | none => simp [hstr] at h
    | some str =>
      simp only [hstr] at h
      cases hwatch : watch s str with
      | none => simp [hwatch] at h
      | some result =>
        cases result with
        | error e => simp [hwatch] at h
        | ok out =>
          simp only [hwatch] at h
          obtain ⟨sub, hsub, hmatched, hsql⟩ := hword s str out hwatch ss
          simp only [Option.bind_eq_bind, Option.bind_some, hsub, hmatched]
          cases out with
          | some q =>
            obtain rfl := hsql q rfl
            cases hor : a.m_or with
            | true => simp_all
            | false => simpa [hor] using ih (by simpa [hor] using h) sub.statuses
          | none =>
            cases hor : a.m_or with
            | true => simpa [hor] using ih (by simpa [hor] using h) sub.statuses
            | false =>
              cases hopt : s.m_optional tree with
              | true => simpa [hor, hopt] using ih (by simpa [hor, hopt] using h) sub.statuses
              | false =>
                obtain ⟨rfl, rfl⟩ : sql = next ∧ false = m' := by simpa [hor, hopt] using h
                exact ⟨sub.statuses, by simp⟩

/-- So is a loop. -/
theorem matchLoop_of_watch
    (hword : ∀ s str next, watch s str = some (.ok next) → Ends matchWord s str next)
    {n k : Nat} (hle : n ≤ k) {again : Bool} {beforeLoop next : Option Sql} {sql : Sql}
    (h : a.watchLoop tree watch n again beforeLoop sql = some (.ok next))
    (ss : List (StatusInfo P)) :
    ∃ st, a.matchLoop tree matchWord k again beforeLoop ⟨ss, sql, true⟩ = some st ∧
      st.matched = next.isSome ∧ ∀ q, next = some q → st.sql = q := by
  induction n generalizing k again beforeLoop sql ss with
  | zero => simp [SQLWordArray.watchLoop] at h
  | succ n ih =>
    obtain ⟨k, rfl⟩ : ∃ j, k = j + 1 := ⟨k - 1, by omega⟩
    have hle' : n ≤ k := Nat.le_of_succ_le_succ hle
    unfold SQLWordArray.watchLoop at h
    unfold SQLWordArray.matchLoop
    -- one turn: the words, then the condition of the loop, then the next turn
    cases hwatch : a.watchWords tree watch a.m_words sql true with
    | none => simp [hwatch] at h
    | some result =>
      cases result with
      | error e => simp [hwatch] at h
      | ok out =>
        obtain ⟨q, matched⟩ := out
        obtain ⟨ss', hwords⟩ := matchWords_of_watch hword hwatch ss
        simp only [hwatch] at h
        simp only [hwords, Option.bind_eq_bind, Option.bind_some]
        cases matched with
        -- the words do not match: after a turn the loop ends, before its last condition
        | false =>
          simp only [Option.some.injEq, Except.ok.injEq] at h
          subst h
          by_cases hback : a.m_loop ∧ again
          · simp [hback]
          · simp [hback]
        | true =>
          cases hloop : a.m_loop with
          | false =>
            obtain rfl : some q = next := by simpa [hloop] using h
            exact ⟨⟨ss', q, true⟩, by simp, rfl, fun _ hq => Option.some.inj hq⟩
          | true =>
            simp only [hloop, not_true_eq_false, if_false, if_true] at h ⊢
            cases hcond : a.m_loopCondition with
            -- no condition: another turn, which the watch allows only if the text moved
            | none =>
              simp only [hcond] at h ⊢
              split_ifs at h
              · simp at h
              · exact ih hle' h ss'
            | some condition =>
              simp only [hcond] at h ⊢
              cases hstr : nextWord q with
              | none => simp [hstr] at h
              | some str =>
                simp only [hstr, Option.bind_some] at h ⊢
                cases hres : condition.match str with
                | none => simp [hres] at h
                | some result =>
                  obtain ⟨values, goOn⟩ := result
                  simp only [hres, Option.bind_some] at h ⊢
                  cases goOn with
                  | none =>
                    obtain rfl : some q = next := by simpa using h
                    exact ⟨⟨ss', q, true⟩, rfl, rfl, fun _ hq => Option.some.inj hq⟩
                  | some goOn =>
                    simp only at h
                    split_ifs at h
                    · simp at h
                    · exact ih hle' h ss'

end Watched

variable {tree : ParseTree P} {stack : List (Nat × Sql)} {w : SQLWord P} {sql : Sql}

theorem match_of_watch {n fuel : Nat} {next : Option Sql}
    (h : w.watch tree n stack sql = some (.ok next)) (hle : n ≤ fuel) :
    Ends (SQLWord.match tree fuel) w sql next := by
  induction n generalizing fuel stack w sql next with
  | zero => simp [SQLWord.watch] at h
  | succ n ih =>
    obtain ⟨fuel, rfl⟩ : ∃ k, fuel = k + 1 := ⟨fuel - 1, by omega⟩
    have hle' : n ≤ fuel := Nat.le_of_succ_le_succ hle
    intro ss
    cases w with
    | single w =>
      unfold SQLWord.watch at h
      cases hres : w.match sql with
      | none => simp [hres] at h
      | some result =>
        obtain ⟨values, out⟩ := result
        obtain rfl : out = next := by simpa [hres] using h
        refine ⟨⟨ss ++ values, out.getD sql, out.isSome⟩, by simp [SQLWord.match, hres], rfl, ?_⟩
        rintro q rfl
        rfl
    | array place =>
      unfold SQLWord.watch at h
      split_ifs at h
      · simp at h
      · obtain ⟨st, hloop, hmatched, hsql⟩ :=
          matchLoop_of_watch (fun s str out hs => ih hs hle') hle' h ss
        unfold SQLWord.match
        simp only [hloop, Option.bind_eq_bind, Option.bind_some, hmatched]
        cases next with
        | some q => exact ⟨st, by simp, hmatched, hsql⟩
        | none =>
          exact ⟨⟨rollbackTo st.statuses ss.length, sql, st.matched⟩, by simpa using hmatched,
            hmatched, fun _ hq => by simp at hq⟩

/-! ## Steps that go wrong -/

section Stalled

variable {a : SQLWordArray P}
  {matchWord matchWord' : SQLWord P → List (StatusInfo P) → Sql → Option (MatchState P)}
  {watch : SQLWord P → Sql → Option (Except Stall (Option Sql))} {Q : Prop}
  {ss : List (StatusInfo P)} {st : MatchState P}

/-- A loop goes on at a position, behind an iteration that has matched. -/
def SQLWordArray.LoopsTo (a : SQLWordArray P) (sql next : Sql) : Prop :=
  a.m_loop = true ∧
    (a.m_loopCondition = none ∧ next = sql ∨
      ∃ condition str values, a.m_loopCondition = some condition ∧ nextWord sql = some str ∧
        condition.match str = some (values, some next))

variable (hmono : ∀ s h str st, matchWord s h str = some st → matchWord' s h str = some st)
  (hends : ∀ s str next, watch s str = some (.ok next) → Ends matchWord' s str next)

include hmono hends

theorem matchWords_agrees {words : List (SQLWord P)} {next : Sql} {m m' : Bool}
    (hwatch : a.watchWords tree watch words sql m = some (.ok (next, m')))
    (hmatch : a.matchWords tree matchWord words ⟨ss, sql, m⟩ = some st) :
    st.sql = next ∧ st.matched = m' := by
  obtain ⟨ss', hwords⟩ := matchWords_of_watch hends hwatch ss
  rw [matchWords_mono hmono words hmatch, Option.some.injEq] at hwords
  exact ⟨by rw [hwords], by rw [hwords]⟩

/-- Words on which the watch stalls are not matched. -/
theorem matchWords_stalled
    (hbad : ∀ s str e, watch s str = some (.error e) →
      ∀ h st, matchWord s h str = some st → Q)
    {words : List (SQLWord P)} {m : Bool} {e : Stall}
    (hwatch : a.watchWords tree watch words sql m = some (.error e))
    (hmatch : a.matchWords tree matchWord words ⟨ss, sql, m⟩ = some st) : Q := by
  induction words generalizing sql m ss with
  | nil => simp [SQLWordArray.watchWords] at hwatch
  | cons s rest ih =>
    unfold SQLWordArray.watchWords at hwatch
    unfold SQLWordArray.matchWords at hmatch
    simp only [Option.bind_eq_bind, Option.bind_eq_some_iff] at hmatch
    obtain ⟨str, hstr, sub, hsub, hrest⟩ := hmatch
    simp only [hstr] at hwatch
    cases hword : watch s str with
    | none => simp [hword] at hwatch
    | some result =>
      cases result with
      | error e => exact hbad s str e hword ss sub hsub
      | ok out =>
        -- the word itself is fine, so the step that goes wrong comes behind it
        obtain ⟨sub', hsub', hmatched, hsql⟩ := hends s str out hword ss
        rw [hmono _ _ _ _ hsub, Option.some.injEq] at hsub'
        subst hsub'
        simp only [hword] at hwatch
        cases out with
        | some q =>
          obtain rfl := hsql q rfl
          simp only [hmatched, Option.isSome_some, if_true] at hrest
          cases hor : a.m_or with
          | true => simp [hor] at hwatch
          | false =>
            simp only [hor, Bool.false_eq_true, if_false] at hwatch hrest
            exact ih hwatch hrest
        | none =>
          simp only [hmatched, Option.isSome_none, Bool.false_eq_true, if_false] at hrest
          cases hor : a.m_or with
          | true =>
            simp only [hor, if_true] at hwatch hrest
            exact ih hwatch hrest
          | false =>
            simp only [hor, Bool.false_eq_true, if_false] at hwatch hrest
            cases hopt : s.m_optional tree with
            | true =>
              simp only [hopt, if_true] at hwatch hrest
              exact ih hwatch hrest
            | false => simp [hopt] at hwatch

theorem matchLoop_idle {next : Sql}
    (hwatch : a.watchWords tree watch a.m_words sql true = some (.ok (next, true)))
    (hloops : a.LoopsTo next sql) (k : Nat) (again : Bool) (beforeLoop : Option Sql)
    (ss : List (StatusInfo P)) :
    a.matchLoop tree matchWord k again beforeLoop ⟨ss, sql, true⟩ = none := by
  induction k generalizing again beforeLoop ss with
  | zero => rfl
  | succ k ih =>
    unfold SQLWordArray.matchLoop
    cases hmatch : a.matchWords tree matchWord a.m_words ⟨ss, sql, true⟩ with
    | none => rfl
    | some it =>
      obtain ⟨hsql, hm⟩ := matchWords_agrees hmono hends hwatch hmatch
      obtain ⟨statuses, sql', matched⟩ := it
      obtain rfl : sql' = next := hsql
      obtain rfl : matched = true := hm
      obtain ⟨hloop, ⟨hcond, rfl⟩ | ⟨condition, str, values, hcond, hstr, hnext⟩⟩ := hloops
      · simp [hloop, hcond, ih]
      · simp [hloop, hcond, hstr, hnext, ih]

/-- Nor is a loop. -/
theorem matchLoop_stalled
    (hbad : ∀ s str e, watch s str = some (.error e) →
      ∀ h st, matchWord s h str = some st → Q)
    {n k : Nat} {again : Bool} {beforeLoop : Option Sql} {e : Stall}
    (hwatch : a.watchLoop tree watch n again beforeLoop sql = some (.error e))
    (hmatch : a.matchLoop tree matchWord k again beforeLoop ⟨ss, sql, true⟩ = some st) : Q := by
  induction n generalizing k again beforeLoop sql ss with
  | zero => simp [SQLWordArray.watchLoop] at hwatch
  | succ n ih =>
    cases k with
    | zero => simp [SQLWordArray.matchLoop] at hmatch
    | succ k =>
      have hrun := hmatch
      unfold SQLWordArray.watchLoop at hwatch
      unfold SQLWordArray.matchLoop at hmatch
      simp only [Option.bind_eq_bind, Option.bind_eq_some_iff] at hmatch
      obtain ⟨it, hit, hrest⟩ := hmatch
      cases hwords : a.watchWords tree watch a.m_words sql true with
      | none => simp [hwords] at hwatch
      | some result =>
        cases result with
        | error e => exact matchWords_stalled hmono hends hbad hwords hit
        | ok out =>
          obtain ⟨next, matched⟩ := out
          obtain ⟨hsql, hm⟩ := matchWords_agrees hmono hends hwords hit
          obtain ⟨statuses, sql', matched'⟩ := it
          obtain rfl : sql' = next := hsql
          obtain rfl : matched' = matched := hm
          simp only [hwords] at hwatch
          cases matched' with
          | false => simp at hwatch
          | true =>
            cases hloop : a.m_loop with
            | false => simp [hloop] at hwatch
            | true =>
              have hidle (hloops : a.LoopsTo sql' sql) : Q := by
                rw [matchLoop_idle hmono hends hwords hloops] at hrun
                simp at hrun
              simp only [hloop, not_true_eq_false, if_false, if_true] at hwatch hrest
              cases hcond : a.m_loopCondition with
              | none =>
                simp only [hcond] at hwatch hrest
                by_cases hsame : sql' = sql
                · exact hidle ⟨hloop, .inl ⟨hcond, hsame.symm⟩⟩
                · rw [if_neg hsame] at hwatch
                  exact ih hwatch hrest
              | some condition =>
                simp only [hcond, Option.bind_eq_some_iff] at hwatch hrest
                obtain ⟨str, hstr, ⟨values, goOn⟩, hnext, hrest⟩ := hrest
                simp only [hstr, hnext] at hwatch
                cases goOn with
                | none => simp at hwatch
                | some goOn =>
                  simp only at hwatch hrest
                  by_cases hsame : goOn = sql
                  · exact hidle ⟨hloop, .inr ⟨condition, str, values, hcond, hstr, hsame ▸ hnext⟩⟩
                  · rw [if_neg hsame] at hwatch
                    exact ih hwatch hrest

end Stalled

/-- If a word returns at a watched step that goes wrong, then so does an array on the stack, and it
needs no more fuel: the step was a second entry of that array. -/
theorem stack_of_stalled {n k : Nat} {e : Stall} {ss : List (StatusInfo P)} {st : MatchState P}
    (hwatch : w.watch tree n stack sql = some (.error e))
    (hmatch : w.match tree k ss sql = some st) :
    ∃ x ∈ stack, ∃ f ≤ k, ∃ ss' st', (SQLWord.array x.1).match tree f ss' x.2 = some st' := by
  induction n generalizing stack w sql k ss st e with
  | zero => simp [SQLWord.watch] at hwatch
  | succ n ih =>
    cases w with
    | single w =>
      unfold SQLWord.watch at hwatch
      cases hres : w.match sql with
      | some result => simp [hres] at hwatch
      | none =>
        cases k with
        | zero => simp [SQLWord.match] at hmatch
        | succ k => simp [SQLWord.match, hres] at hmatch
    | array place =>
      unfold SQLWord.watch at hwatch
      by_cases hmem : (place, sql) ∈ stack
      · exact ⟨(place, sql), hmem, k, Nat.le_refl k, ss, st, hmatch⟩
      rw [if_neg hmem] at hwatch
      -- a second entry of this array is a shorter run of the same match
      induction k using Nat.strong_induction_on generalizing ss st with
      | _ k ihk =>
        cases k with
        | zero => simp [SQLWord.match] at hmatch
        | succ k =>
          unfold SQLWord.match at hmatch
          simp only [Option.bind_eq_bind, Option.bind_eq_some_iff] at hmatch
          obtain ⟨it, hit, -⟩ := hmatch
          obtain ⟨x, hx, f, hf, ss', st', hrun⟩ := matchLoop_stalled
            (fun s h str st hst => match_mono (Nat.le_max_right n k) hst)
            (fun s str next hs => match_of_watch hs (Nat.le_max_left n k))
            (fun s str e hs h st hst => ih hs hst) hwatch hit
          obtain rfl | hx := List.mem_cons.mp hx
          · obtain ⟨x, hx, f', hf', hrun'⟩ := ihk f (by omega) hrun
            exact ⟨x, hx, f', by omega, hrun'⟩
          · exact ⟨x, hx, f, by omega, ss', st', hrun⟩

theorem not_returns_of_stalled {place n : Nat} {e : Stall} (ss : List (StatusInfo P))
    (hwatch : (SQLWord.array place).watch tree n [] sql = some (.error e)) :
    ¬Returns tree place ss sql := by
  rintro ⟨k, hreturns⟩
  obtain ⟨st, hmatch⟩ := Option.isSome_iff_exists.mp (hreturns k (Nat.le_refl k))
  obtain ⟨x, hx, -⟩ := stack_of_stalled hwatch hmatch
  simp at hx

theorem goesOn_of_watch {place n : Nat} {next : Option Sql}
    (hwatch : (SQLWord.array place).watch tree n [] sql = some (.ok next)) :
    GoesOn tree place sql := by
  intro fuel e hstall
  obtain ⟨st, hmatch, -⟩ := match_of_watch hwatch (Nat.le_refl n) []
  exact not_returns_of_stalled [] hstall (returns_of_match hmatch)

/-! ## Positions -/

theorem endOfComment_suffix {prev : UInt8} {str rest : Sql} (h : endOfComment prev str = some rest) :
    rest <:+ str := by
  induction str generalizing prev with
  | nil => simp [endOfComment] at h
  | cons c str ih =>
    unfold endOfComment at h
    split_ifs at h
    · rw [← Option.some.inj h]
      exact (List.tail_suffix str).trans (List.suffix_cons c str)
    · exact (ih h).trans (List.suffix_cons c str)

theorem jumpOverSpace_suffix (str : Sql) : jumpOverSpace str <:+ str := List.dropWhile_suffix _

private theorem jumpOverComment_suffix (str : Sql) : jumpOverComment str <:+ str := by
  unfold jumpOverComment
  split
  · rename_i rest hspace
    cases hend : endOfComment 42 rest with
    | none => exact List.suffix_refl str
    | some rest' =>
      have hrest : rest <:+ str := by
        have := jumpOverSpace_suffix str
        rw [hspace] at this
        exact ((List.suffix_cons 42 rest).trans (List.suffix_cons 47 _)).trans this
      exact (endOfComment_suffix hend).trans hrest
  · exact List.suffix_refl str

theorem nextWordFrom_suffix {n : Nat} {str word : Sql} (h : nextWordFrom n str = some word) :
    word <:+ str := by
  induction n generalizing str with
  | zero => simp [nextWordFrom] at h
  | succ n ih =>
    unfold nextWordFrom at h
    split_ifs at h
    · exact (ih h).trans ((jumpOverSpace_suffix _).trans (jumpOverComment_suffix str))
    · rw [← Option.some.inj h]

theorem nextWord_suffix {str word : Sql} (h : nextWord str = some word) : word <:+ str :=
  nextWordFrom_suffix h

private theorem endOfWord_suffix (str : Sql) : (endOfWord str).2 <:+ str := by
  induction str with
  | nil => exact List.suffix_refl []
  | cons c str ih =>
    unfold endOfWord
    split_ifs
    · exact List.suffix_refl _
    · exact ih.trans (List.suffix_cons c str)

theorem getName_suffix {str name rest : Sql} (h : getName str = some (name, rest)) :
    rest <:+ str := by
  unfold getName at h
  split at h
  · simp at h
  · rename_i c tail
    split_ifs at h
    · split at h
      · simp at h
      · rename_i d rest' hdrop
        obtain ⟨-, rfl⟩ := h
        have := List.dropWhile_suffix (l := tail) (· ≠ c)
        rw [hdrop] at this
        exact ((List.suffix_cons d _).trans this).trans (List.suffix_cons c tail)
    · have := endOfWord_suffix (c :: tail)
      simp only at h
      split_ifs at h
      simp only [Option.some.injEq, Prod.mk.injEq] at h
      rwa [← h.2]

/-- A word that matches ends at a position behind the one at which it begins. -/
def SQLSingleWord.Forward (w : SQLSingleWord P) : Prop :=
  ∀ run, w.m_wtype = .S_OTHER run → ∀ p values rest, run p = some (values, some rest) → rest <:+ p

theorem matchAt_suffix {w : SQLSingleWord P} (hw : w.Forward) {p rest : Sql}
    {values : List SQLValue} (h : w.m_wtype.matchAt p = some (values, some rest)) : rest <:+ p := by
  cases htype : w.m_wtype with
  | S_CHAR m_word =>
    rw [htype] at h
    unfold SingleWordType.matchAt at h
    cases p with
    | nil => simp at h
    | cons c tail =>
      simp only at h
      split_ifs at h
      · simp only [Option.some.injEq, Prod.mk.injEq] at h
        rw [← h.2]
        exact List.suffix_cons c tail
      · simp at h
  | S_NAME =>
    rw [htype] at h
    unfold SingleWordType.matchAt at h
    cases hname : getName p with
    | none => simp [hname] at h
    | some result =>
      simp only [hname, Option.some.injEq, Prod.mk.injEq] at h
      rw [← h.2]
      exact getName_suffix hname
  | S_STRING m_word =>
    rw [htype] at h
    unfold SingleWordType.matchAt at h
    simp only at h
    split_ifs at h
    · simp only [Option.some.injEq, Prod.mk.injEq] at h
      rw [← h.2]
      exact List.drop_suffix _ p
    · simp at h
  | S_OTHER run =>
    rw [htype] at h
    exact hw run htype p values rest h

theorem match_suffix {w : SQLSingleWord P} (hw : w.Forward) {p rest : Sql}
    {added : List (StatusInfo P)} (h : w.match p = some (added, some rest)) : rest <:+ p := by
  unfold SQLSingleWord.match at h
  simp only [Option.bind_eq_bind, Option.bind_eq_some_iff] at h
  obtain ⟨str, hstr, ⟨values, next⟩, hnext, hrest⟩ := h
  have : next = some rest := by
    cases hfunc : w.m_parserFunc with
    | none =>
      simp only [hfunc, Option.pure_def, Option.some.injEq, Prod.mk.injEq] at hrest
      exact hrest.2
    | some f =>
      simp only [hfunc, Option.pure_def, Option.some.injEq, Prod.mk.injEq] at hrest
      exact hrest.2
  subst this
  exact (matchAt_suffix hw hnext).trans (nextWord_suffix hstr)

/-! ## A watched match always stops -/

/-- A word that stays in the text, or an array at one of the first `n` places. -/
def SQLWord.Fits (n : Nat) : SQLWord P → Prop
  | .single w => w.Forward
  | .array place => place < n

/-- A parse tree with words in its first `n` places only, all of which stay in the text. -/
structure Finite (tree : ParseTree P) (n : Nat) : Prop where
  words : ∀ place, ∀ s ∈ (tree place).m_words, s.Fits n
  conditions : ∀ place c, (tree place).m_loopCondition = some c → c.Forward

section Stops

variable {a : SQLWordArray P} {watch : SQLWord P → Sql → Option (Except Stall (Option Sql))}
  {text : Sql} {n : Nat}

theorem watchWords_suffix {words : List (SQLWord P)}
    (hword : ∀ s ∈ words, ∀ str q, watch s str = some (.ok (some q)) → q <:+ str)
    {next : Sql} {m m' : Bool}
    (h : a.watchWords tree watch words sql m = some (.ok (next, m'))) : next <:+ sql := by
  induction words generalizing sql m with
  | nil =>
    simp only [SQLWordArray.watchWords, Option.some.injEq, Except.ok.injEq, Prod.mk.injEq] at h
    rw [← h.1]
  | cons s rest ih =>
    have hrest : ∀ s ∈ rest, ∀ str q, watch s str = some (.ok (some q)) → q <:+ str :=
      fun s hs => hword s (List.mem_cons_of_mem _ hs)
    unfold SQLWordArray.watchWords at h
    split at h
    · simp at h
    · rename_i str hstr
      split at h
      · simp at h
      · simp at h
      · rename_i q hq
        have hsuffix := (hword s List.mem_cons_self str q hq).trans (nextWord_suffix hstr)
        split_ifs at h
        · simp only [Option.some.injEq, Except.ok.injEq, Prod.mk.injEq] at h
          rwa [← h.1]
        · exact (ih hrest h).trans hsuffix
      · split_ifs at h
        · exact ih hrest h
        · exact ih hrest h
        · simp only [Option.some.injEq, Except.ok.injEq, Prod.mk.injEq] at h
          rw [← h.1]

/-- A loop ends in the text it began in. -/
theorem watchLoop_suffix
    (hword : ∀ s ∈ a.m_words, ∀ str q, watch s str = some (.ok (some q)) → q <:+ str)
    (hcond : ∀ c, a.m_loopCondition = some c → c.Forward) {fuel : Nat} {again : Bool}
    {beforeLoop : Option Sql} (hsql : sql <:+ text) (hbefore : ∀ x, beforeLoop = some x → x <:+ text)
    {q : Sql} (h : a.watchLoop tree watch fuel again beforeLoop sql = some (.ok (some q))) :
    q <:+ text := by
  induction fuel generalizing again beforeLoop sql with
  | zero => simp [SQLWordArray.watchLoop] at h
  | succ fuel ih =>
    unfold SQLWordArray.watchLoop at h
    split at h
    · simp at h
    · simp at h
    · rename_i next hnext
      have hsuffix := (watchWords_suffix hword hnext).trans hsql
      split_ifs at h
      · simp only [Option.some.injEq, Except.ok.injEq] at h
        rw [← h]
        cases beforeLoop with
        | none => exact hsuffix
        | some x => exact hbefore x rfl
      · simp at h
    · rename_i next hnext
      have hsuffix := (watchWords_suffix hword hnext).trans hsql
      cases hloop : a.m_loop with
      | false =>
        obtain rfl : next = q := by simpa [hloop] using h
        exact hsuffix
      | true =>
        simp only [hloop, not_true_eq_false, if_false] at h
        cases hc : a.m_loopCondition with
        | none =>
          simp only [hc] at h
          by_cases hsame : next = sql
          · simp [hsame] at h
          · rw [if_neg hsame] at h
            exact ih hsuffix hbefore h
        | some condition =>
          simp only [hc] at h
          split at h
          · simp at h
          · rename_i str hstr
            split at h
            · simp at h
            · simp only [Option.some.injEq, Except.ok.injEq] at h
              rwa [← h]
            · rename_i values goOn hgoOn
              have hgo : goOn <:+ text := (match_suffix (hcond condition hc) hgoOn).trans
                ((nextWord_suffix hstr).trans hsuffix)
              by_cases hsame : goOn = sql
              · simp [hsame] at h
              · rw [if_neg hsame] at h
                exact ih hgo (fun x hx => by rw [← Option.some.inj hx]; exact hsuffix) h

theorem watch_suffix (htree : Finite tree n) (hw : w.Fits n) {fuel : Nat} {q : Sql}
    (h : w.watch tree fuel stack sql = some (.ok (some q))) : q <:+ sql := by
  induction fuel generalizing stack w sql q with
  | zero => simp [SQLWord.watch] at h
  | succ fuel ih =>
    cases w with
    | single w =>
      unfold SQLWord.watch at h
      cases hres : w.match sql with
      | none => simp [hres] at h
      | some result =>
        obtain ⟨values, next⟩ := result
        obtain rfl : next = some q := by simpa [hres] using h
        exact match_suffix hw hres
    | array place =>
      unfold SQLWord.watch at h
      split_ifs at h
      · simp at h
      · exact watchLoop_suffix (fun s hs str q hq => ih (htree.words place s hs) hq)
          (htree.conditions place) (List.suffix_refl sql) (by simp) h

theorem watchWords_isSome {words : List (SQLWord P)}
    (hword : ∀ s ∈ words, ∀ str, str <:+ text → (watch s str).isSome)
    (hsuffix : ∀ s ∈ words, ∀ str q, watch s str = some (.ok (some q)) → q <:+ str)
    (hsql : sql <:+ text) {m : Bool} : (a.watchWords tree watch words sql m).isSome := by
  induction words generalizing sql m with
  | nil => rfl
  | cons s rest ih =>
    have ih' {sql : Sql} {m : Bool} (hsql : sql <:+ text) :=
      ih (fun s hs => hword s (List.mem_cons_of_mem _ hs))
        (fun s hs => hsuffix s (List.mem_cons_of_mem _ hs)) hsql (m := m)
    unfold SQLWordArray.watchWords
    cases hstr : nextWord sql with
    | none => rfl
    | some str =>
      have hpos : str <:+ text := (nextWord_suffix hstr).trans hsql
      obtain ⟨result, hresult⟩ := Option.isSome_iff_exists.mp
        (hword s List.mem_cons_self str hpos)
      simp only [hresult]
      cases result with
      | error e => rfl
      | ok out =>
        cases out with
        | some q =>
          have hq := (hsuffix s List.mem_cons_self str q hresult).trans hpos
          simp only
          split_ifs
          · rfl
          · exact ih' hq
        | none =>
          simp only
          split_ifs
          · exact ih' hsql
          · exact ih' hsql
          · rfl

/-- A watched loop ends: each turn leaves less text, or is an idle one. -/
theorem watchLoop_isSome
    (hword : ∀ s ∈ a.m_words, ∀ str, str <:+ text → (watch s str).isSome)
    (hsuffix : ∀ s ∈ a.m_words, ∀ str q, watch s str = some (.ok (some q)) → q <:+ str)
    (hcond : ∀ c, a.m_loopCondition = some c → c.Forward) {fuel : Nat} {again : Bool}
    {beforeLoop : Option Sql} (hsql : sql <:+ text) (hfuel : sql.length < fuel) :
    (a.watchLoop tree watch fuel again beforeLoop sql).isSome := by
  induction fuel generalizing again beforeLoop sql with
  | zero => omega
  | succ fuel ih =>
    have hshorter {next : Sql} (h : next <:+ sql) (hne : next ≠ sql) : next.length < fuel := by
      have hle := h.length_le
      have : next.length ≠ sql.length := fun heq => hne (h.eq_of_length heq)
      omega
    unfold SQLWordArray.watchLoop
    have hsome : (a.watchWords tree watch a.m_words sql true).isSome :=
      watchWords_isSome hword hsuffix hsql
    obtain ⟨result, hresult⟩ := Option.isSome_iff_exists.mp hsome
    simp only [hresult]
    cases result with
    | error e => rfl
    | ok out =>
      obtain ⟨next, matched⟩ := out
      have hnext : next <:+ sql := watchWords_suffix hsuffix hresult
      cases matched with
      | false => rfl
      | true =>
        cases hloop : a.m_loop with
        | false => rfl
        | true =>
          simp only [not_true_eq_false, if_false]
          cases hc : a.m_loopCondition with
          | none =>
            by_cases hsame : next = sql
            · rw [if_pos hsame]
              rfl
            · rw [if_neg hsame]
              exact ih (hnext.trans hsql) (hshorter hnext hsame)
          | some condition =>
            cases hstr : nextWord next with
            | none => rfl
            | some str =>
              simp only
              cases hres : condition.match str with
              | none => rfl
              | some result =>
                obtain ⟨values, goOn⟩ := result
                cases goOn with
                | none => rfl
                | some goOn =>
                  have hgo : goOn <:+ sql := (match_suffix (hcond condition hc) hres).trans
                    ((nextWord_suffix hstr).trans hnext)
                  simp only
                  by_cases hsame : goOn = sql
                  · rw [if_pos hsame]
                    rfl
                  · rw [if_neg hsame]
                    exact ih (hgo.trans hsql) (hshorter hgo hsame)

theorem length_stack_le (hnodup : stack.Nodup) (hstack : ∀ x ∈ stack, x.1 < n ∧ x.2 <:+ text) :
    stack.length ≤ n * (text.length + 1) := by
  have hsubset : stack ⊆ List.range n ×ˢ text.tails := by
    intro x hx
    obtain ⟨hplace, hpos⟩ := hstack x hx
    exact List.mem_product.mpr ⟨List.mem_range.mpr hplace, (List.mem_tails _ _).mpr hpos⟩
  have hle := (List.subperm_of_subset hnodup hsubset).length_le
  simpa [List.length_product, List.length_tails] using hle

theorem watch_isSome (htree : Finite tree n) (hw : w.Fits n) {fuel : Nat} (hnodup : stack.Nodup)
    (hstack : ∀ x ∈ stack, x.1 < n ∧ x.2 <:+ text) (hsql : sql <:+ text)
    (hfuel : n * (text.length + 1) + text.length + 2 ≤ fuel + stack.length) :
    (w.watch tree fuel stack sql).isSome := by
  induction fuel generalizing stack w sql with
  | zero =>
    have := length_stack_le hnodup hstack
    omega
  | succ fuel ih =>
    cases w with
    | single w =>
      unfold SQLWord.watch
      cases w.match sql with
      | none => rfl
      | some result => rfl
    | array place =>
      unfold SQLWord.watch
      by_cases hmem : (place, sql) ∈ stack
      · rw [if_pos hmem]
        rfl
      · rw [if_neg hmem]
        have hnodup' : ((place, sql) :: stack).Nodup := List.nodup_cons.mpr ⟨hmem, hnodup⟩
        have hstack' : ∀ x ∈ (place, sql) :: stack, x.1 < n ∧ x.2 <:+ text := by
          intro x hx
          obtain rfl | hx := List.mem_cons.mp hx
          · exact ⟨hw, hsql⟩
          · exact hstack x hx
        have hlength := length_stack_le hnodup' hstack'
        have hsize := hsql.length_le
        simp only [List.length_cons] at hlength
        refine watchLoop_isSome ?_ (fun s hs str q hq => watch_suffix htree (htree.words place s hs) hq)
          (htree.conditions place) hsql (by omega)
        intro s hs str hstr
        refine ih (htree.words place s hs) hnodup' hstack' hstr ?_
        simp only [List.length_cons]
        omega

end Stops

theorem returns_iff_goesOn {n place : Nat} (htree : Finite tree n) (hplace : place < n)
    (h : List (StatusInfo P)) (sql : Sql) : Returns tree place h sql ↔ GoesOn tree place sql := by
  constructor
  · intro hreturns fuel e hwatch
    exact not_returns_of_stalled h hwatch hreturns
  · intro hgoes
    let fuel := n * (sql.length + 1) + sql.length + 2
    have hsome : ((SQLWord.array place).watch tree fuel [] sql).isSome :=
      watch_isSome htree (show (SQLWord.array place).Fits n from hplace) List.nodup_nil (by simp)
        (List.suffix_refl sql) (by simp [fuel])
    obtain ⟨result, hresult⟩ := Option.isSome_iff_exists.mp hsome
    cases result with
    | error e => exact absurd hresult (hgoes fuel e)
    | ok next =>
      obtain ⟨st, hmatch, -⟩ := match_of_watch hresult (Nat.le_refl fuel) h
      exact returns_of_match hmatch

end DBStream.Native.SQL_PARSER
