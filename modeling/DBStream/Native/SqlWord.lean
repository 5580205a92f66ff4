import Mathlib.Algebra.Group.Nat.Defs
import Mathlib.Data.List.Basic

/-!
# Words of the SQL parser

`sqlParser/sqlWord.{h,cpp}` and `sqlParserUtil.h`.  A `const char*` into the text is what is left of
the text from there on; the terminating NUL is the end of the list.  A parse tree may be recursive,
so a word refers to an array by the place of the array in the tree, and `match` runs on fuel.
-/

namespace DBStream.Native.SQL_PARSER

/-- A `const char*` into the text. -/
abbrev Sql := List UInt8

/-! ## Blanks, comments and names -/

/-- The four blanks. -/
def isSpace (c : UInt8) : Bool := c = 32 ∨ c = 9 ∨ c = 10 ∨ c = 13

def isSpaceOrComment : Sql → Bool
  | [] => false
  | c :: rest => isSpace c || (c == 47 && rest.head? == some 42)

def jumpOverSpace (str : Sql) : Sql := str.dropWhile isSpace

/-- The search for the end of a comment: a `*` that no backslash precedes and a `/` follows. -/
def endOfComment (prev : UInt8) : Sql → Option Sql
  | [] => none
  | c :: rest =>
    if c = 42 ∧ prev ≠ 92 ∧ rest.head? = some 47 then some rest.tail else endOfComment c rest

/-- `jumpOverComment`, which leaves the pointer alone when there is no complete comment. -/
def jumpOverComment (str : Sql) : Sql :=
  match jumpOverSpace str with
  | 47 :: 42 :: rest => (endOfComment 42 rest).getD str
  | _ => str

/-- The loop of `nextWord`. -/
def nextWordFrom : Nat → Sql → Option Sql
  | 0, _ => none
  | n + 1, str =>
    if isSpaceOrComment str then nextWordFrom n (jumpOverSpace (jumpOverComment str)) else some str

/-- `nextWord`.  Every turn of the loop that goes on shortens the text, so that more turns than the
text has characters mean that it hangs at a comment without an end. -/
def nextWord (str : Sql) : Option Sql := nextWordFrom (str.length + 1) str

/-- The characters that `initKeyWords` marks in `KeyChar`. -/
def isKeyChar (c : UInt8) : Bool :=
  c ∈ [46, 96, 39, 34, 43, 45, 42, 47, 37, 38, 124, 126, 94, 40, 41, 123, 125, 61, 62, 60, 59, 44,
    91, 93].map UInt8.ofNat

/-- `endOfWord`, with the word in front of it. -/
def endOfWord : Sql → List UInt8 × Sql
  | [] => ([], [])
  | c :: rest =>
    if isSpaceOrComment (c :: rest) || isKeyChar c then ([], c :: rest)
    else ((c :: (endOfWord rest).1), (endOfWord rest).2)

/-- `getName` without a prescribed quote: the name, whose size goes through a `uint16_t`, and its
end. -/
def getName : Sql → Option (List UInt8 × Sql)
  | [] => none
  | c :: rest =>
    if c = 96 ∨ c = 39 ∨ c = 34 then
      match rest.dropWhile (· ≠ c) with
      | [] => none
      | _ :: realEnd =>
        some (rest.take ((rest.length - (realEnd.length + 1)) % 2 ^ 16), realEnd)
    else
      let (word, realEnd) := endOfWord (c :: rest)
      if word = [] then none else some (word.take (word.length % 2 ^ 16), realEnd)

/-- A letter in lower case. -/
def toLower (c : UInt8) : UInt8 := if 65 ≤ c ∧ c ≤ 90 then c + 32 else c

/-! ## Words -/

/-- `SQLValue`: what a word has read. -/
inductive SQLValue where
  | CHAR (value : UInt8)
  | NAME (name : List UInt8)
  | STRING (value : List UInt8)
  | OTHER (bytes : List UInt8)
  deriving DecidableEq

/-- `statusInfo`: a parser function of the tree and the value it is to process. -/
structure StatusInfo (P : Type) where
  parserFunc : P
  value : SQLValue
  deriving DecidableEq

/-- The kinds of single words.  `S_OTHER` stands for the words whose text is matched by more than a
comparison (numbers, column and table names, functions, expressions, lists): the values they hand to
`addStatus` and, if they match, the end of what they matched; `none` when they do not come to an end
in the text.  A function word hands on the values of the functions among its arguments, also when it
fails behind them. -/
inductive SingleWordType where
  | S_CHAR (m_word : UInt8)
  | S_NAME
  | S_STRING (m_word : List UInt8)
  | S_OTHER (run : Sql → Option (List SQLValue × Option Sql))

/-- What the kinds do at the beginning `p` of a word.  A character word for the NUL matches the end
of the text and leaves a pointer behind it; that is `none`, too. -/
def SingleWordType.matchAt (p : Sql) : SingleWordType → Option (List SQLValue × Option Sql)
  | .S_CHAR m_word =>
    match p with
    | [] => if m_word = 0 then none else some ([], none)
    | c :: rest =>
      if toLower m_word = toLower c then some ([.CHAR (toLower m_word)], some rest)
      else some ([], none)
  | .S_NAME =>
    match getName p with
    | none => some ([], none)
    | some (name, nameEnd) => some ([.NAME name], some nameEnd)
  | .S_STRING m_word =>
    let rest := p.drop m_word.length
    let ends := isSpaceOrComment rest || rest.head?.all isKeyChar
    if (p.take m_word.length).map toLower = m_word.map toLower ∧ ends then
      some ([.STRING m_word], some rest)
    else some ([], none)
  | .S_OTHER run => run p

variable {P : Type}

/-- `SQLSingleWord`; the parser function of a word is its `m_parser`. -/
structure SQLSingleWord (P : Type) where
  m_optional : Bool
  m_wtype : SingleWordType
  m_parserFunc : Option P

/-- `SQLSingleWord::match`: the statuses it adds and, if it matches, the new position. -/
def SQLSingleWord.match (w : SQLSingleWord P) (sql : Sql) :
    Option (List (StatusInfo P) × Option Sql) := do
  let p ← nextWord sql
  let (values, sql) ← w.m_wtype.matchAt p
  match w.m_parserFunc with
  | none => return ([], sql)
  | some f => return (values.map fun v => ⟨f, v⟩, sql)

/-- `SQLWord`: a single word, or the array at a place of the parse tree. -/
inductive SQLWord (P : Type) where
  | single (w : SQLSingleWord P)
  | array (place : Nat)

/-- `SQLWordArray`.  `m_loopCondition` is a word without parser function, or `nullptr` for a loop
that goes on always. -/
structure SQLWordArray (P : Type) where
  m_optional : Bool
  m_words : List (SQLWord P)
  m_or : Bool
  m_loop : Bool
  m_loopCondition : Option (SQLSingleWord P)

/-- The arrays of a loaded parse tree. -/
abbrev ParseTree (P : Type) := Nat → SQLWordArray P

/-- `m_optional` of a word. -/
def SQLWord.m_optional (tree : ParseTree P) : SQLWord P → Bool
  | .single w => w.m_optional
  | .array place => (tree place).m_optional

/-! ## Matching -/

/-- The handle's list of statuses and the position, as `match` leaves them, and whether it has
matched. -/
structure MatchState (P : Type) where
  statuses : List (StatusInfo P)
  sql : Sql
  matched : Bool

namespace SQLWordArray

variable (a : SQLWordArray P) (tree : ParseTree P)
  (matchWord : SQLWord P → List (StatusInfo P) → Sql → Option (MatchState P))

/-- The `for` over `m_words`.  `matched` is `rtv != NOT_MATCH_PTR`. -/
def matchWords : List (SQLWord P) → MatchState P → Option (MatchState P)
  | [], st => some st
  | s :: rest, st => do
    let str ← nextWord st.sql
    let sub ← matchWord s st.statuses str
    if sub.matched then
      let st := { st with statuses := sub.statuses, sql := sub.sql, matched := true }
      if a.m_or then return st else matchWords rest st
    else
      let st := { st with statuses := sub.statuses, matched := false }
      if a.m_or then matchWords rest st
      else if s.m_optional tree then matchWords rest { st with matched := true }
      else return st

/-- The `do` loop.  `again` is `matched` of the source: an iteration has matched. -/
def matchLoop : Nat → Bool → Option Sql → MatchState P → Option (MatchState P)
  | 0, _, _, _ => none
  | fuel + 1, again, beforeLoop, st => do
    let st ← a.matchWords tree matchWord a.m_words st
    if ¬st.matched then
      if a.m_loop ∧ again then return { st with sql := beforeLoop.getD st.sql, matched := true }
      else return st
    else if a.m_loop then
      match a.m_loopCondition with
      | none => matchLoop fuel true beforeLoop st
      | some condition =>
        let str ← nextWord st.sql
        let (_, cond) ← condition.match str
        match cond with
        | some sql => matchLoop fuel true (some st.sql) { st with sql := sql }
        | none => return st
    else return st

end SQLWordArray

/-- `handle::rollbackTo`, for the number of statuses at the save point. -/
def rollbackTo (statuses : List (StatusInfo P)) (top : Nat) : List (StatusInfo P) :=
  statuses.take top

/-- `match`, with fuel for the nesting of words and for the loop of an array. -/
def SQLWord.match (tree : ParseTree P) :
    Nat → SQLWord P → List (StatusInfo P) → Sql → Option (MatchState P)
  | 0, _, _, _ => none
  | _ + 1, .single w, h, sql => do
    let (added, next) ← w.match sql
    return ⟨h ++ added, next.getD sql, next.isSome⟩
  | fuel + 1, .array place, h, sql => do
    let st ← (tree place).matchLoop tree (SQLWord.match tree fuel) fuel false none ⟨h, sql, true⟩
    if st.matched then return st
    else return { st with statuses := rollbackTo st.statuses h.length, sql := sql }

end DBStream.Native.SQL_PARSER
