import DBStream.ForStd.Option
import DBStream.Native.SqlWord

/-!
# What a match of the SQL parser records

An account of a match tells the statuses that stand, those of the words that consumed text in the
iterations that matched, from the statuses that are left behind: what a failed alternative or a
failed iteration of a loop had recorded.  The list of the handle is what it was, the statuses that
stand and those that are left behind; so it is clean exactly when nothing is left behind.
-/

namespace DBStream.Native.SQL_PARSER

variable {P : Type}

/-! ## Accounts -/

/-- What a match has recorded, with the position and the outcome. -/
structure Account (P : Type) where
  standing : List (StatusInfo P)
  left : List (StatusInfo P)
  sql : Sql
  matched : Bool

namespace SQLWordArray

variable (a : SQLWordArray P) (tree : ParseTree P) (account : SQLWord P → Sql → Option (Account P))

/-- The account of one iteration: a word that fails leaves behind what it has recorded. -/
def accountWords : List (SQLWord P) → Account P → Option (Account P)
  | [], acc => some acc
  | s :: rest, acc => do
    let str ← nextWord acc.sql
    let sub ← account s str
    if sub.matched then
      let acc :=
        { acc with
          standing := acc.standing ++ sub.standing
          left := acc.left ++ sub.left
          sql := sub.sql
          matched := true }
      if a.m_or then return acc else accountWords rest acc
    else
      let acc := { acc with left := acc.left ++ (sub.standing ++ sub.left), matched := false }
      if a.m_or then accountWords rest acc
      else if s.m_optional tree then accountWords rest { acc with matched := true }
      else return acc

/-- The account of a loop: an iteration that matches is added to what stands; one that fails behind
another is left behind as a whole. -/
def accountLoop : Nat → Bool → Option Sql → Account P → Option (Account P)
  | 0, _, _, _ => none
  | fuel + 1, again, beforeLoop, acc => do
    let it ← a.accountWords tree account a.m_words ⟨[], [], acc.sql, acc.matched⟩
    if ¬it.matched then
      let acc :=
        { acc with left := acc.left ++ (it.standing ++ it.left), sql := it.sql, matched := false }
      if a.m_loop ∧ again then
        return { acc with sql := beforeLoop.getD it.sql, matched := true }
      else return acc
    else
      let acc : Account P := ⟨acc.standing ++ it.standing, acc.left ++ it.left, it.sql, true⟩
      if a.m_loop then
        match a.m_loopCondition with
        | none => accountLoop fuel true beforeLoop acc
        | some condition =>
          let str ← nextWord acc.sql
          let (_, cond) ← condition.match str
          match cond with
          | some sql => accountLoop fuel true (some acc.sql) { acc with sql := sql }
          | none => return acc
      else return acc

end SQLWordArray

/-- The account of a match.  Nothing stands of a word that fails, and an array that fails takes back
whatever it has recorded. -/
def SQLWord.account (tree : ParseTree P) : Nat → SQLWord P → Sql → Option (Account P)
  | 0, _, _ => none
  | _ + 1, .single w, sql => do
    let (added, next) ← w.match sql
    match next with
    | some next => return ⟨added, [], next, true⟩
    | none => return ⟨[], added, sql, false⟩
  | fuel + 1, .array place, sql => do
    let acc ← (tree place).accountLoop tree (SQLWord.account tree fuel) fuel false none
      ⟨[], [], sql, true⟩
    if acc.matched then return acc else return ⟨[], [], sql, false⟩

/-! ## The account is right -/

/-- The account of what a match has added to the statuses `h`. -/
structure Tracks (h : List (StatusInfo P)) (st : MatchState P) (acc : Account P) : Prop where
  sql : st.sql = acc.sql
  matched : st.matched = acc.matched
  statuses : ∃ added, st.statuses = h ++ added ∧
    added.length = acc.standing.length + acc.left.length ∧
    (acc.left = [] → added = acc.standing)

variable {h : List (StatusInfo P)} {st : MatchState P} {acc : Account P}

theorem Tracks.stand {st' : MatchState P} {it : Account P} (hst : Tracks h st acc)
    (hit : Tracks st.statuses st' it) (sql : Sql) (matched : Bool) :
    Tracks h ⟨st'.statuses, sql, matched⟩
      ⟨acc.standing ++ it.standing, acc.left ++ it.left, sql, matched⟩ := by
  obtain ⟨added, hadded, hlen, htidy⟩ := hst.statuses
  obtain ⟨added', hadded', hlen', htidy'⟩ := hit.statuses
  refine ⟨rfl, rfl, added ++ added', ?_, ?_, ?_⟩
  · rw [hadded', hadded, List.append_assoc]
  · simp only [List.length_append]
    omega
  · intro hnil
    rw [List.append_eq_nil_iff] at hnil
    rw [htidy hnil.1, htidy' hnil.2]

theorem Tracks.leave {st' : MatchState P} {it : Account P} (hst : Tracks h st acc)
    (hit : Tracks st.statuses st' it) (sql : Sql) (matched : Bool) :
    Tracks h ⟨st'.statuses, sql, matched⟩
      ⟨acc.standing, acc.left ++ (it.standing ++ it.left), sql, matched⟩ := by
  obtain ⟨added, hadded, hlen, htidy⟩ := hst.statuses
  obtain ⟨added', hadded', hlen', htidy'⟩ := hit.statuses
  refine ⟨rfl, rfl, added ++ added', ?_, ?_, ?_⟩
  · rw [hadded', hadded, List.append_assoc]
  · simp only [List.length_append]
    omega
  · intro hnil
    simp only [List.append_eq_nil_iff] at hnil
    have hempty : added' = [] := by rw [htidy' hnil.2.2, hnil.2.1]
    rw [htidy hnil.1, hempty, List.append_nil]

section Array

variable {a : SQLWordArray P} {tree : ParseTree P}
  {matchWord : SQLWord P → List (StatusInfo P) → Sql → Option (MatchState P)}
  {account : SQLWord P → Sql → Option (Account P)}

theorem matchWords_tracks
    (hword : ∀ s h str, Option.Rel (Tracks h) (matchWord s h str) (account s str))
    (words : List (SQLWord P)) (hst : Tracks h st acc) :
    Option.Rel (Tracks h) (a.matchWords tree matchWord words st)
      (a.accountWords tree account words acc) := by
  induction words generalizing st acc with
  | nil => exact .some hst
  | cons s rest ih =>
    unfold SQLWordArray.matchWords SQLWordArray.accountWords
    rw [hst.sql]
    apply Option.Rel.bind_same
    intro str
    apply Option.Rel.bind (hword s st.statuses str)
    intro sub subacc hsub
    rw [hsub.matched, hsub.sql]
    cases hm : subacc.matched with
    | true =>
      have hnext := hst.stand hsub subacc.sql true
      cases a.m_or with
      | true => exact .some hnext
      | false => exact ih hnext
    | false =>
      have hskip := hst.leave hsub acc.sql
      cases a.m_or with
      | true => exact ih (hskip false)
      | false =>
        cases s.m_optional tree with
        | true => exact ih (hskip true)
        | false => exact .some (hskip false)

/-- The loop over the words and its account without handles go together. -/
theorem matchLoop_tracks
    (hword : ∀ s h str, Option.Rel (Tracks h) (matchWord s h str) (account s str))
    (fuel : Nat) (again : Bool) (beforeLoop : Option Sql) (hst : Tracks h st acc) :
    Option.Rel (Tracks h) (a.matchLoop tree matchWord fuel again beforeLoop st)
      (a.accountLoop tree account fuel again beforeLoop acc) := by
  induction fuel generalizing again beforeLoop st acc with
  | zero => exact .none
  | succ fuel ih =>
    -- an iteration has an account of its own, on top of what was recorded before it
    have hstart : Tracks st.statuses st ⟨[], [], acc.sql, acc.matched⟩ :=
      ⟨hst.sql, hst.matched, [], by simp, rfl, fun _ => rfl⟩
    apply Option.Rel.bind (matchWords_tracks hword a.m_words hstart)
    intro st' it hit
    obtain ⟨statuses, sql, matched⟩ := st'
    obtain rfl : sql = it.sql := hit.sql
    obtain rfl : matched = it.matched := hit.matched
    cases hm : it.matched with
    | false =>
      have hleft := hst.leave hit
      cases a.m_loop with
      | false => exact .some (hleft it.sql false)
      | true =>
        cases again with
        | false => exact .some (hleft it.sql false)
        | true => exact .some (hleft (beforeLoop.getD it.sql) true)
    | true =>
      have hstand (sql : Sql) := hst.stand hit sql true
      cases a.m_loop with
      | false => exact .some (hstand it.sql)
      | true =>
        cases a.m_loopCondition with
        | none => exact ih true beforeLoop (hstand it.sql)
        | some condition =>
          apply Option.Rel.bind_same
          intro str
          apply Option.Rel.bind_same
          intro result
          obtain ⟨values, next⟩ := result
          cases next with
          | none => exact .some (hstand it.sql)
          | some sql => exact ih true (some it.sql) (hstand sql)

end Array

theorem match_tracks (tree : ParseTree P) (fuel : Nat) (w : SQLWord P)
    (h : List (StatusInfo P)) (sql : Sql) :
    Option.Rel (Tracks h) (w.match tree fuel h sql) (w.account tree fuel sql) := by
  induction fuel generalizing w h sql with
  | zero => exact .none
  | succ fuel ih =>
    cases w with
    | single w =>
      apply Option.Rel.bind_same
      intro result
      obtain ⟨added, next⟩ := result
      cases next with
      | none => exact .some ⟨rfl, rfl, added, rfl, by simp, fun hnil => hnil⟩
      | some next => exact .some ⟨rfl, rfl, added, rfl, by simp, fun _ => rfl⟩
    | array place =>
      have hstart : Tracks h ⟨h, sql, true⟩ ⟨[], [], sql, true⟩ :=
        ⟨rfl, rfl, [], by simp, rfl, fun _ => rfl⟩
      apply Option.Rel.bind (matchLoop_tracks ih fuel false none hstart)
      intro st acc hst
      rw [hst.matched]
      cases hm : acc.matched with
      | true => exact .some ⟨hst.sql, hst.matched, hst.statuses⟩
      | false =>
        obtain ⟨added, hadded, -⟩ := hst.statuses
        refine .some ⟨rfl, rfl, [], ?_, rfl, fun _ => rfl⟩
        simp [rollbackTo, hadded]

/-! ## Arrays -/

/-- What a match of an array should do to the handle and to the position: a match that fails leaves
both as they were, and one that succeeds adds the statuses that stand. -/
structure Clean (h : List (StatusInfo P)) (sql : Sql) (st : MatchState P) (acc : Account P) :
    Prop where
  failed : st.matched = false → st.statuses = h ∧ st.sql = sql
  succeeded : st.matched = true → st.statuses = h ++ acc.standing

variable {tree : ParseTree P} {fuel place : Nat} {sql : Sql}

theorem match_array_failed (hmatch : (SQLWord.array place).match tree fuel h sql = some st)
    (hfail : st.matched = false) : st.statuses = h ∧ st.sql = sql := by
  cases fuel with
  | zero => simp [SQLWord.match] at hmatch
  | succ fuel =>
    have hstart : Tracks h ⟨h, sql, true⟩ ⟨[], [], sql, true⟩ :=
      ⟨rfl, rfl, [], by simp, rfl, fun _ => rfl⟩
    have hloop : Option.Rel (Tracks h)
        ((tree place).matchLoop tree (SQLWord.match tree fuel) fuel false none ⟨h, sql, true⟩) _ :=
      matchLoop_tracks (match_tracks tree fuel) fuel false none hstart
    simp only [SQLWord.match, Option.bind_eq_bind, Option.bind_eq_some_iff] at hmatch
    obtain ⟨st', hrun, hst⟩ := hmatch
    rw [hrun] at hloop
    cases hm : st'.matched with
    | true =>
      simp only [hm, if_true, Option.pure_def, Option.some.injEq] at hst
      rw [← hst, hm] at hfail
      simp at hfail
    | false =>
      simp only [hm, Bool.false_eq_true, if_false, Option.pure_def, Option.some.injEq] at hst
      subst hst
      obtain ⟨acc, -, htracks⟩ := hloop.exists_right
      obtain ⟨added, hadded, -⟩ := htracks.statuses
      exact ⟨by simp [rollbackTo, hadded], rfl⟩

private theorem account_array_failed (hacc : (SQLWord.array place).account tree fuel sql = some acc)
    (hfail : acc.matched = false) : acc.left = [] := by
  cases fuel with
  | zero => simp [SQLWord.account] at hacc
  | succ fuel =>
    simp only [SQLWord.account, Option.bind_eq_bind, Option.bind_eq_some_iff] at hacc
    obtain ⟨acc', -, hret⟩ := hacc
    split at hret
    · rename_i hm
      rw [← Option.some.inj hret, hm] at hfail
      simp at hfail
    · rw [← Option.some.inj hret]

/-- For every parse tree, array, text and list of statuses: what the match of the array does is
clean if and only if no failed alternative and no failed iteration leaves a status behind. -/
theorem match_clean_iff (hmatch : (SQLWord.array place).match tree fuel h sql = some st) :
    ∃ acc, (SQLWord.array place).account tree fuel sql = some acc ∧
      (Clean h sql st acc ↔ acc.left = []) := by
  have htracks := match_tracks tree fuel (.array place) h sql
  rw [hmatch] at htracks
  obtain ⟨acc, hacc, htracks⟩ := htracks.exists_right
  obtain ⟨added, hadded, hlen, htidy⟩ := htracks.statuses
  refine ⟨acc, hacc, ?_, ?_⟩
  · intro hclean
    cases hm : st.matched with
    | false => exact account_array_failed hacc (by rw [← htracks.matched, hm])
    | true =>
      have hsame : added = acc.standing := by
        rw [hclean.succeeded hm] at hadded
        exact (List.append_cancel_left hadded).symm
      rw [hsame] at hlen
      exact List.length_eq_zero_iff.mp (by omega)
  · intro hnil
    refine ⟨match_array_failed hmatch, fun _ => ?_⟩
    rw [hadded, htidy hnil]

def xyList : ParseTree Unit := fun _ =>
  { m_optional := false
    m_words := [.single ⟨false, .S_CHAR 120, some ()⟩, .single ⟨false, .S_CHAR 121, none⟩]
    m_or := false
    m_loop := true
    m_loopCondition := some ⟨false, .S_CHAR 44, none⟩ }

/-- In the text `xy,xy` nothing is left behind. -/
theorem match_clean_iff_xyxy :
    ∃ st acc, (SQLWord.array 0).match xyList 4 [] [120, 121, 44, 120, 121] = some st ∧
      (SQLWord.array 0).account xyList 4 [120, 121, 44, 120, 121] = some acc ∧
      acc.standing.length = 2 ∧ (Clean [] [120, 121, 44, 120, 121] st acc ↔ acc.left = []) := by
  have hmatch : (SQLWord.array 0).match xyList 4 [] [120, 121, 44, 120, 121] =
      some ⟨[⟨(), .CHAR 120⟩, ⟨(), .CHAR 120⟩], [], true⟩ := rfl
  obtain ⟨acc, hacc, hiff⟩ := match_clean_iff hmatch
  refine ⟨_, acc, hmatch, hacc, ?_, hiff⟩
  rw [← Option.some.inj hacc]
  rfl

/-- In the text `xy,xz` the second `x` stays in the list, although the match ends in front of the
comma. -/
theorem not_clean_xyxz :
    ∃ st acc, (SQLWord.array 0).match xyList 4 [] [120, 121, 44, 120, 122] = some st ∧
      (SQLWord.array 0).account xyList 4 [120, 121, 44, 120, 122] = some acc ∧
      st.matched = true ∧ st.sql = [44, 120, 122] ∧
      st.statuses = [⟨(), .CHAR 120⟩, ⟨(), .CHAR 120⟩] ∧ acc.standing = [⟨(), .CHAR 120⟩] ∧
      ¬Clean [] [120, 121, 44, 120, 122] st acc := by
  refine ⟨_, _, rfl, rfl, rfl, rfl, rfl, rfl, ?_⟩
  intro hclean
  exact absurd (hclean.succeeded rfl) (by decide)

end DBStream.Native.SQL_PARSER
