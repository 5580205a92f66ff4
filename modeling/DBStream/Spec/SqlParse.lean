import DBStream.ForStd.Option
import DBStream.Native.SqlParser

/-!
# Statements one behind the other

The heads of a parse tree read a text from its first word on, so blanks in front of a statement do
not matter.  A statement that is read in front of a semicolon as it is read alone is the next turn
of the loop of `parse`; but every turn fills the first handle, whose user data is in the end that
of the last statement.
-/

namespace DBStream.Native.SQL_PARSER

variable {P U : Type}

/-! ## The first word -/

/-- Two positions with the same next word. -/
def SameWord (x y : Sql) : Prop := nextWord x = nextWord y

theorem not_isSpaceOrComment_of_nextWordFrom {n : Nat} {x y : Sql}
    (h : nextWordFrom n x = some y) : isSpaceOrComment y = false := by
  induction n generalizing x with
  | zero => simp [nextWordFrom] at h
  | succ n ih =>
    rw [nextWordFrom] at h
    split at h
    · exact ih h
    · rename_i hword
      rw [← Option.some.inj h]
      simpa using hword

theorem nextWord_of_word {x : Sql} (h : isSpaceOrComment x = false) : nextWord x = some x := by
  simp [nextWord, nextWordFrom, h]

theorem nextWord_idem {x y : Sql} (h : nextWord x = some y) : nextWord y = some y :=
  nextWord_of_word (not_isSpaceOrComment_of_nextWordFrom h)

/-- The states of two matches that differ in blanks only. -/
structure Near (st st' : MatchState P) : Prop where
  statuses : st.statuses = st'.statuses
  matched : st.matched = st'.matched
  sql : SameWord st.sql st'.sql

theorem Near.refl (st : MatchState P) : Near st st := ⟨rfl, rfl, rfl⟩

section Array

variable {a : SQLWordArray P} {tree : ParseTree P}
  {matchWord : SQLWord P → List (StatusInfo P) → Sql → Option (MatchState P)}
  {st st' : MatchState P}

theorem matchWords_near (words : List (SQLWord P)) (h : Near st st') :
    Option.Rel Near (a.matchWords tree matchWord words st)
      (a.matchWords tree matchWord words st') := by
  induction words generalizing st st' with
  | nil => exact .some h
  | cons s rest ih =>
    unfold SQLWordArray.matchWords
    have hword : nextWord st.sql = nextWord st'.sql := h.sql
    rw [hword, h.statuses]
    apply Option.Rel.bind_same
    intro str
    apply Option.Rel.bind_same
    intro sub
    cases sub.matched with
    | true =>
      cases a.m_or with
      | true => exact .some (Near.refl _)
      | false => exact ih (Near.refl _)
    | false =>
      have hskip (matched : Bool) : Near (P := P) ⟨sub.statuses, st.sql, matched⟩
          ⟨sub.statuses, st'.sql, matched⟩ := ⟨rfl, rfl, h.sql⟩
      cases a.m_or with
      | true => exact ih (hskip false)
      | false =>
        cases s.m_optional tree with
        | true => exact ih (hskip true)
        | false => exact .some (hskip false)

/-- A loop takes states that differ in blanks to such states. -/
theorem matchLoop_near (fuel : Nat) (again : Bool) {b b' : Option Sql}
    (hb : Option.Rel SameWord b b') (h : Near st st') :
    Option.Rel Near (a.matchLoop tree matchWord fuel again b st)
      (a.matchLoop tree matchWord fuel again b' st') := by
  induction fuel generalizing again b b' st st' with
  | zero => exact .none
  | succ fuel ih =>
    apply Option.Rel.bind (matchWords_near a.m_words h)
    intro it it' hit
    have hword : nextWord it.sql = nextWord it'.sql := hit.sql
    rw [hit.matched, hword]
    cases it'.matched with
    | false =>
      cases a.m_loop with
      | false => exact .some hit
      | true =>
        cases again with
        | false => exact .some hit
        | true =>
          refine .some ⟨hit.statuses, rfl, ?_⟩
          cases hb with
          | none => exact hit.sql
          | some hsame => exact hsame
    | true =>
      cases a.m_loop with
      | false => exact .some hit
      | true =>
        cases a.m_loopCondition with
        | none => exact ih true hb hit
        | some condition =>
          apply Option.Rel.bind_same
          intro str
          apply Option.Rel.bind_same
          intro result
          obtain ⟨values, next⟩ := result
          cases next with
          | none => exact .some hit
          | some sql => exact ih true (.some hit.sql) ⟨hit.statuses, rfl, rfl⟩

private theorem match_array_near (fuel place : Nat) (h : List (StatusInfo P)) {x y : Sql}
    (hxy : SameWord x y) :
    Option.Rel Near ((SQLWord.array place).match tree fuel h x)
      ((SQLWord.array place).match tree fuel h y) := by
  cases fuel with
  | zero => exact .none
  | succ fuel =>
    have hstart : Near (P := P) ⟨h, x, true⟩ ⟨h, y, true⟩ := ⟨rfl, rfl, hxy⟩
    apply Option.Rel.bind (matchLoop_near fuel false .none hstart)
    intro st st' hst
    rw [hst.matched]
    cases hm : st'.matched with
    | true => exact .some hst
    | false => exact .some ⟨by rw [hst.statuses], rfl, hxy⟩

end Array

/-! ## Reading one statement -/

namespace SqlParser

variable {p : SqlParser U} {x y : Sql} {ss : List (StatusInfo (ParserFunc U))}

theorem matchHeads_near (fuel : Nat) (heads : List Nat) (h : List (StatusInfo (ParserFunc U)))
    (hxy : SameWord x y) :
    Option.Rel (Option.Rel fun r r' => r.1 = r'.1 ∧ SameWord r.2 r'.2)
      (p.matchHeads fuel heads h x) (p.matchHeads fuel heads h y) := by
  induction heads generalizing h with
  | nil => exact .some .none
  | cons head heads ih =>
    apply Option.Rel.bind (match_array_near fuel head h hxy)
    intro st st' hst
    rw [hst.matched, hst.statuses]
    cases st'.matched with
    | true => exact .some (.some ⟨rfl, hst.sql⟩)
    | false => exact ih st'.statuses

/-- The heads of the parse tree read the statuses `ss` at the beginning of `x` and leave `rest`,
given fuel enough. -/
def Reads (p : SqlParser U) (x : Sql) (ss : List (StatusInfo (ParserFunc U))) (rest : Sql) :
    Prop :=
  ∃ n, ∀ fuel ≥ n, ∃ tmp,
    p.matchHeads fuel p.m_parseTreeHead [] x = some (some (ss, tmp)) ∧ nextWord tmp = some rest

theorem Reads.of_sameWord {rest : Sql} (h : p.Reads x ss rest) (hxy : SameWord x y) :
    p.Reads y ss rest := by
  obtain ⟨n, hread⟩ := h
  refine ⟨n, fun fuel hfuel => ?_⟩
  obtain ⟨tmp, hmatch, hrest⟩ := hread fuel hfuel
  have hnear := matchHeads_near (p := p) fuel p.m_parseTreeHead [] hxy
  rw [hmatch] at hnear
  obtain ⟨r, hr, hrel⟩ := hnear.exists_right
  cases hrel with
  | @some _ r' hrel =>
    obtain ⟨ss', tmp'⟩ := r'
    obtain ⟨rfl, hsame⟩ := hrel
    refine ⟨tmp', hr, ?_⟩
    rw [← hrest]
    exact hsame.symm

/-- A text whose first word is no semicolon. -/
def Begins (x : Sql) : Prop := ∃ c t, nextWord x = some (c :: t) ∧ c ≠ 59

/-- A statement ends at a semicolon: in front of one it is read as it is read alone.  The semicolon
is left, or it is taken as an optional last word. -/
structure Separable (p : SqlParser U) (s : Sql) (ss : List (StatusInfo (ParserFunc U))) : Prop where
  alone : p.Reads s ss []
  inFront : ∀ rest y, nextWord rest = some y →
    p.Reads (s ++ 59 :: rest) ss (59 :: rest) ∨ p.Reads (s ++ 59 :: rest) ss y
  begins : Begins s
  beginsInFront : ∀ rest, Begins (s ++ 59 :: rest)

/-- Statements with semicolons between them. -/
def joined : List Sql → Sql
  | [] => []
  | [s] => s
  | s :: rest => s ++ 59 :: joined rest

/-! ## A turn of the loop -/

theorem skipSemicolons_of_ne {n : Nat} {c : UInt8} {t : Sql} (h : c ≠ 59) :
    skipSemicolons (n + 1) (c :: t) = some (c :: t) := by
  simp [skipSemicolons, h]

theorem skipSemicolons_spec {n : Nat} {c : UInt8} {t : Sql} (hword : nextWord x = some (c :: t))
    (hc : c ≠ 59) : skipSemicolons (n + 2) (59 :: x) = some (c :: t) := by
  rw [skipSemicolons, hword]
  exact skipSemicolons_of_ne hc

/-- The current handle takes the statuses of the statement, and the first handle its position. -/
def filled (ss : List (StatusInfo (ParserFunc U))) (sql : Sql) (session : Session U) :
    Handle U → List (Handle U) → Handle U × List (Handle U)
  | h, [] => ({ h with statuses := ss, sql := some sql, session := session }, [])
  | h, current :: older =>
    ({ h with sql := some sql, session := session }, { current with statuses := ss } :: older)

theorem filled_session (sql : Sql) (session : Session U) (h : Handle U)
    (others : List (Handle U)) : (filled ss sql session h others).1.session = session := by
  cases others <;> rfl

theorem length_filled (sql : Sql) (session : Session U) (h : Handle U)
    (others : List (Handle U)) : (filled ss sql session h others).2.length = others.length := by
  cases others <;> rfl

theorem filled_others {sql : Sql} {session : Session U} {h : Handle U}
    {others : List (Handle U)} (hothers : ∀ o ∈ others, o.session = ⟨[], none⟩) :
    ∀ o ∈ (filled ss sql session h others).2, o.session = ⟨[], none⟩ := by
  cases others with
  | nil => simp [filled]
  | cons current older => simpa [filled] using hothers

theorem parseLoop_last {fuel n : Nat} {tmp : Sql} {h : Handle U} {others : List (Handle U)}
    {session : Session U}
    (hmatch : p.matchHeads fuel p.m_parseTreeHead [] x = some (some (ss, tmp)))
    (hrest : nextWord tmp = some [])
    (hprocess : processStatuses ss (p.init h.session) = some session) :
    p.parseLoop fuel (n + 1) h others x =
      some (.OK, (filled ss x session h others).1 ::
        (filled ss x session h others).2.reverse) := by
  cases others <;> simp [parseLoop, hmatch, hrest, hprocess, skipSemicolons, filled]

theorem parseLoop_next {fuel n : Nat} {tmp rest : Sql} {h : Handle U} {others : List (Handle U)}
    {session : Session U}
    (hmatch : p.matchHeads fuel p.m_parseTreeHead [] x = some (some (ss, tmp)))
    (hrest : nextWord tmp = some rest)
    (hprocess : processStatuses ss (p.init h.session) = some session)
    (hothers : ∀ o ∈ others, o.session = ⟨[], none⟩) {c : UInt8} {t : Sql}
    (hskip : skipSemicolons (rest.length + 1) rest = some (c :: t)) :
    p.parseLoop fuel (n + 1) h others x =
      p.parseLoop fuel n (filled ss x session h others).1
        ({} :: (filled ss x session h others).2) (c :: t) := by
  cases others with
  | nil => simp [parseLoop, hmatch, hrest, hprocess, hskip, filled]
  | cons current older =>
    have hsession := hothers current List.mem_cons_self
    simp [parseLoop, hmatch, hrest, hprocess, hskip, filled, hsession]

theorem Separable.next {s : Sql} (hs : p.Separable s ss) {c : UInt8} {t : Sql}
    (hword : nextWord y = some (c :: t)) (hc : c ≠ 59) :
    ∃ rest, p.Reads (s ++ 59 :: y) ss rest ∧
      skipSemicolons (rest.length + 1) rest = some (c :: t) := by
  obtain hleft | htaken := hs.inFront y (c :: t) hword
  · exact ⟨_, hleft, skipSemicolons_spec hword hc⟩
  · exact ⟨_, htaken, skipSemicolons_of_ne hc⟩

/-! ## Whole texts -/

/-- Statements parsed one by one, each with the database that those before it have selected: the
handles of the parses. -/
def ParsedAlone (p : SqlParser U) : List UInt8 → List Sql → List (Handle U) → Prop
  | _, [], alone => alone = []
  | db, s :: rest, alone => ∃ a tail, alone = a :: tail ∧
      (∃ n, ∀ fuel ≥ n, p.parse fuel db s = some (.OK, [a])) ∧
      p.ParsedAlone a.session.dbName rest tail

/-- The user data that the last handle carries. -/
def lastData (alone : List (Handle U)) : Option U := alone.getLast?.bind (·.session.userData)

theorem processed_of_alone {db : List UInt8} {s : Sql} {a : Handle U}
    (hinit : p.m_initUserDataFunc = some createUserData) (hread : p.Reads s ss [])
    (halone : ∃ n, ∀ fuel ≥ n, p.parse fuel db s = some (.OK, [a])) (u : Option U) :
    processStatuses ss (p.init ⟨db, u⟩) = some a.session := by
  obtain ⟨n, hread⟩ := hread
  obtain ⟨m, halone⟩ := halone
  have hparse := halone (n + m + 1) (by omega)
  obtain ⟨tmp, hmatch, hrest⟩ := hread (n + m + 1) (by omega)
  have hdata : p.init ⟨db, u⟩ = p.init ⟨db, none⟩ := by simp [init, hinit, createUserData]
  rw [hdata]
  cases hprocess : processStatuses ss (p.init ⟨db, none⟩) with
  | none => simp [parse, parseLoop, hmatch, hrest, hprocess] at hparse
  | some session =>
    rw [parse, parseLoop_last hmatch hrest hprocess] at hparse
    simp only [filled, List.reverse_nil, Option.some.injEq, Prod.mk.injEq, List.cons.injEq,
      and_true, true_and] at hparse
    rw [← hparse]

private theorem begins_joined {s : Sql} {rest : List Sql}
    (hsep : ∀ s' ∈ s :: rest, ∃ ss, p.Separable s' ss) : Begins (joined (s :: rest)) := by
  obtain ⟨ss, hs⟩ := hsep s List.mem_cons_self
  cases rest with
  | nil => exact hs.begins
  | cons s' rest => exact hs.beginsInFront (joined (s' :: rest))

/-- A run over statements, from any position in the loop: the first handle is left with the session
of the last statement, and every other handle without one. -/
theorem parseLoop_run (hinit : p.m_initUserDataFunc = some createUserData) {stmts : List Sql}
    {alone : List (Handle U)} (hne : stmts ≠ []) (hsep : ∀ s ∈ stmts, ∃ ss, p.Separable s ss)
    {db : List UInt8} (halone : p.ParsedAlone db stmts alone) {h : Handle U}
    {others : List (Handle U)} (hdb : h.session.dbName = db)
    (hothers : ∀ o ∈ others, o.session = ⟨[], none⟩) (hx : SameWord (joined stmts) x) :
    ∃ n h' others', (∀ fuel ≥ n, ∀ m ≥ n, p.parseLoop fuel m h others x =
        some (.OK, h' :: others')) ∧
      others'.length + 1 = others.length + stmts.length ∧
      (∀ o ∈ others', o.session = ⟨[], none⟩) ∧
      h'.session.userData = lastData alone := by
  induction stmts generalizing db alone h others x with
  | nil => exact absurd rfl hne
  | cons s rest ih =>
    obtain ⟨a, tail, rfl, hparse, htail⟩ := halone
    obtain ⟨ss, hs⟩ := hsep s List.mem_cons_self
    have hprocess : processStatuses ss (p.init h.session) = some a.session := by
      have := processed_of_alone hinit hs.alone hparse h.session.userData
      rwa [← hdb] at this
    -- the last statement ends the loop, any other one is followed by a new handle
    cases rest with
    | nil =>
      obtain rfl : tail = [] := htail
      obtain ⟨n, hread⟩ := hs.alone.of_sameWord hx
      refine ⟨n + 1, (filled ss x a.session h others).1, (filled ss x a.session h others).2.reverse,
        ?_, by simp [length_filled], ?_, by simp [filled_session, lastData]⟩
      · intro fuel hfuel m hm
        obtain ⟨m, rfl⟩ : ∃ m', m = m' + 1 := ⟨m - 1, by omega⟩
        obtain ⟨tmp, hmatch, hrest⟩ := hread fuel (by omega)
        exact parseLoop_last hmatch hrest hprocess
      · intro o ho
        exact filled_others hothers o (List.mem_reverse.mp ho)
    | cons s' rest =>
      obtain ⟨c, t, hword, hc⟩ := begins_joined fun s hs' => hsep s (List.mem_cons_of_mem _ hs')
      obtain ⟨left, hread, hskip⟩ := hs.next hword hc
      obtain ⟨n, hread⟩ := hread.of_sameWord hx
      have hnext : SameWord (joined (s' :: rest)) (c :: t) := by
        rw [SameWord, hword, nextWord_idem hword]
      have hothers' : ∀ o ∈ ({} : Handle U) :: (filled ss x a.session h others).2,
          o.session = ⟨[], none⟩ := by
        intro o ho
        obtain rfl | ho := List.mem_cons.mp ho
        · rfl
        · exact filled_others hothers o ho
      obtain ⟨m₀, h', others', hrun, hlen, hnone, hdata⟩ := ih (List.cons_ne_nil s' rest)
        (fun s hs' => hsep s (List.mem_cons_of_mem _ hs')) htail
        (h := (filled ss x a.session h others).1) (by rw [filled_session]) hothers' hnext
      refine ⟨n + m₀ + 1, h', others', ?_, ?_, hnone, ?_⟩
      · intro fuel hfuel m hm
        obtain ⟨m, rfl⟩ : ∃ m', m = m' + 1 := ⟨m - 1, by omega⟩
        obtain ⟨tmp, hmatch, hrest⟩ := hread fuel (by omega)
        rw [parseLoop_next hmatch hrest hprocess hothers hskip]
        exact hrun fuel (by omega) m (by omega)
      · simp only [List.length_cons, length_filled] at hlen ⊢
        omega
      · obtain ⟨a', tail', rfl, -⟩ := htail
        simpa [lastData] using hdata

/-- Parsing the joined text gives one handle for each statement, each with the user data of the
statement parsed alone, so that the DDLs are processed one by one. -/
def Composes (p : SqlParser U) (db : List UInt8) (stmts : List Sql) (alone : List (Handle U)) :
    Prop :=
  ∃ n hs, (∀ fuel ≥ n, p.parse fuel db (joined stmts) = some (.OK, hs)) ∧
    hs.map (·.session.userData) = alone.map (·.session.userData) ∧
    processedDDLs hs = processedDDLs alone

private theorem processedDDLs_congr {hs hs' : List (Handle U)}
    (h : hs.map (·.session.userData) = hs'.map (·.session.userData)) :
    processedDDLs hs = processedDDLs hs' := by
  have hmap (l : List (Handle U)) :
      processedDDLs l = (l.map (·.session.userData)).filterMap id := by
    simp [processedDDLs, List.filterMap_map]
  rw [hmap, hmap, h]

theorem length_parsedAlone {db : List UInt8} {stmts : List Sql} {alone : List (Handle U)}
    (h : p.ParsedAlone db stmts alone) : alone.length = stmts.length := by
  induction stmts generalizing db alone with
  | nil => simp [show alone = [] from h]
  | cons s rest ih =>
    obtain ⟨a, tail, rfl, -, htail⟩ := h
    simp [ih htail]

/-- For every sequence of statements that end at semicolons and are accepted one by one: parsing the
joined text composes if and only if there is one statement, or none of them leaves user data. -/
theorem composes_iff (p : SqlParser U) (hinit : p.m_initUserDataFunc = some createUserData)
    {stmts : List Sql} (hne : stmts ≠ []) (hsep : ∀ s ∈ stmts, ∃ ss, p.Separable s ss)
    {db : List UInt8} {alone : List (Handle U)} (halone : p.ParsedAlone db stmts alone) :
    p.Composes db stmts alone ↔
      stmts.length = 1 ∨ ∀ a ∈ alone, a.session.userData = none := by
  let start : Handle U := { session := ⟨db, none⟩ }
  have hnothers : ∀ o ∈ ([] : List (Handle U)), o.session = ⟨[], none⟩ := by simp
  obtain ⟨n, h', others', hrun, hlen, hnone, hdata⟩ :=
    parseLoop_run hinit hne hsep halone (h := start) rfl hnothers rfl
  have hparse : ∀ fuel ≥ n, p.parse fuel db (joined stmts) = some (.OK, h' :: others') :=
    fun fuel hfuel => hrun fuel hfuel fuel hfuel
  have hlength := length_parsedAlone halone
  obtain ⟨a, tail, rfl⟩ : ∃ a tail, alone = a :: tail := by
    cases alone with
    | nil => simp [List.length_eq_zero_iff.mp hlength.symm] at hne
    | cons a tail => exact ⟨a, tail, rfl⟩
  simp only [List.length_cons, List.length_nil, Nat.zero_add] at hlen hlength
  constructor
  · rintro ⟨m, hs, hall, hmap, -⟩
    obtain rfl : h' :: others' = hs := by
      have hboth := (hparse (n + m) (by omega)).symm.trans (hall (n + m) (by omega))
      simpa using hboth
    simp only [List.map_cons, List.cons.injEq] at hmap
    cases tail with
    | nil => exact .inl (by simpa using hlength.symm)
    | cons a' tail =>
      right
      -- the handles behind the first carry nothing, the last of them in particular
      have htail : ∀ b ∈ a' :: tail, b.session.userData = none := by
        intro b hb
        have hmem : b.session.userData ∈ others'.map (·.session.userData) := by
          rw [hmap.2]
          exact List.mem_map_of_mem hb
        obtain ⟨o, ho, hdata⟩ := List.mem_map.mp hmem
        rw [← hdata, hnone o ho]
      have hlast : lastData (a :: a' :: tail) = none := by
        exact htail _ (List.getLast_mem _)
      intro b hb
      obtain rfl | hb := List.mem_cons.mp hb
      · rw [← hmap.1, hdata, hlast]
      · exact htail b hb
  · intro hcond
    have hmap : (h' :: others').map (·.session.userData) =
        (a :: tail).map (·.session.userData) := by
      obtain hone | hdataless := hcond
      · obtain rfl : tail = [] := List.length_eq_zero_iff.mp (by omega)
        obtain rfl : others' = [] := List.length_eq_zero_iff.mp (by omega)
        simpa [lastData] using hdata
      · have hlast : lastData (a :: tail) = none := by
          exact hdataless _ (List.getLast_mem _)
        have hleft := List.eq_replicate_of_mem (l := (h' :: others').map (·.session.userData))
          (a := none) (by
            intro u hu
            obtain ⟨o, ho, rfl⟩ := List.mem_map.mp hu
            obtain rfl | ho := List.mem_cons.mp ho
            · rw [hdata, hlast]
            · rw [hnone o ho])
        have hright := List.eq_replicate_of_mem (l := (a :: tail).map (·.session.userData))
          (a := none) (by
            intro u hu
            obtain ⟨b, hb, rfl⟩ := List.mem_map.mp hu
            exact hdataless b hb)
        rw [hleft, hright]
        simp only [List.length_map, List.length_cons]
        congr 1
        omega
    exact ⟨n, h' :: others', hparse, hmap, processedDDLs_congr hmap⟩

def useDatabase : ParserFunc (List UInt8) := fun value h =>
  match value with
  | .NAME name => (.OK, { h with dbName := name })
  | _ => (.INVALID, h)

def dropNamed : ParserFunc (List UInt8) := fun value h =>
  match value with
  | .NAME name => (.OK, { h with userData := some name })
  | _ => (.INVALID, h)

def smallParser : SqlParser (List UInt8) where
  m_parseTree := fun place =>
    { m_optional := false
      m_words :=
        if place = 0 then
          [.single ⟨false, .S_STRING [117, 115, 101], none⟩,
            .single ⟨false, .S_NAME, some useDatabase⟩]
        else
          [.single ⟨false, .S_STRING [100, 114, 111, 112], none⟩,
            .single ⟨false, .S_NAME, some dropNamed⟩]
      m_or := false
      m_loop := false
      m_loopCondition := none }
  m_parseTreeHead := [0, 1]
  m_initUserDataFunc := some createUserData

def useA : Sql := [117, 115, 101, 32, 97]

/-- `drop` and a database with a name of one letter. -/
def dropText (name : UInt8) : Sql := [100, 114, 111, 112, 32, name]

theorem separable_useA : smallParser.Separable useA [⟨useDatabase, .NAME [97]⟩] := by
  refine ⟨⟨4, fun fuel hfuel => ?_⟩, fun rest _ _ => .inl ⟨4, fun fuel hfuel => ?_⟩,
    ⟨_, _, rfl, by decide⟩, fun rest => ⟨_, _, rfl, by decide⟩⟩
  · obtain ⟨k, rfl⟩ := Nat.exists_eq_add_of_le' hfuel
    exact ⟨_, rfl, rfl⟩
  · obtain ⟨k, rfl⟩ := Nat.exists_eq_add_of_le' hfuel
    exact ⟨_, rfl, rfl⟩

/-- Two statements without user data compose. -/
theorem composes_iff_useA :
    ∃ alone, smallParser.ParsedAlone [] [useA, useA] alone ∧
      smallParser.Composes [] [useA, useA] alone := by
  have hparse (db : List UInt8) : ∃ n, ∀ fuel ≥ n, smallParser.parse fuel db useA = some (.OK,
      [⟨⟨[97], none⟩, some useA, [⟨useDatabase, .NAME [97]⟩]⟩]) :=
    ⟨4, fun fuel hfuel => by
      obtain ⟨k, rfl⟩ := Nat.exists_eq_add_of_le' hfuel
      exact rfl⟩
  have halone : smallParser.ParsedAlone [] [useA, useA] [_, _] :=
    ⟨_, _, rfl, hparse [], _, _, rfl, hparse [97], rfl⟩
  refine ⟨_, halone, (composes_iff smallParser rfl (List.cons_ne_nil _ _) ?_ halone).mpr (.inr ?_)⟩
  · intro s hs
    simp only [List.mem_cons, List.not_mem_nil, or_false, or_self] at hs
    rw [hs]
    exact ⟨_, separable_useA⟩
  · intro a ha
    simp only [List.mem_cons, List.not_mem_nil, or_false] at ha
    obtain rfl | rfl := ha <;> rfl

/-- `drop a;drop b`: each statement has user data of its own, but in the joined text the first
handle carries that of the second statement, and the second handle none. -/
theorem not_composes_drops :
    ∃ alone hs, smallParser.ParsedAlone [] [dropText 97, dropText 98] alone ∧
      alone.map (·.session.userData) = [some [97], some [98]] ∧
      smallParser.parse 4 [] (joined [dropText 97, dropText 98]) = some (.OK, hs) ∧
      hs.map (·.session.userData) = [some [98], none] ∧
      ¬smallParser.Composes [] [dropText 97, dropText 98] alone := by
  have hparse (name : UInt8) (hname : name = 97 ∨ name = 98) :
      ∃ n, ∀ fuel ≥ n, smallParser.parse fuel [] (dropText name) = some (.OK,
        [⟨⟨[], some [name]⟩, some (dropText name), [⟨dropNamed, .NAME [name]⟩]⟩]) :=
    ⟨4, fun fuel hfuel => by
      obtain ⟨k, rfl⟩ := Nat.exists_eq_add_of_le' hfuel
      obtain rfl | rfl := hname <;> rfl⟩
  refine ⟨_, _, ⟨_, _, rfl, hparse 97 (.inl rfl), _, _, rfl, hparse 98 (.inr rfl), rfl⟩, rfl, rfl,
    rfl, ?_⟩
  rintro ⟨n, hs, hall, hmap, -⟩
  have hparsed := hall (n + 4) (by omega)
  have hjoined : smallParser.parse (n + 4) [] (joined [dropText 97, dropText 98]) =
      some (.OK, [_, _]) := rfl
  rw [hjoined, Option.some.injEq, Prod.mk.injEq] at hparsed
  rw [← hparsed.2] at hmap
  exact absurd hmap (by decide)

end SqlParser

end DBStream.Native.SQL_PARSER
