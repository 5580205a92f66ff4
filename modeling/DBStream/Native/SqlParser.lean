import DBStream.Native.SqlWord

/-!
# The SQL parser

`sqlParser::parse` of `sqlParser/sqlParserEngine.cpp`, and the loop of
`metaDataCollection::processDDL` that takes the user data from the handles.  The parser functions of
a parse tree are functions of the value they process and of the part of the handle they work on;
that some of them also store the pointer `sql` is left out.
-/

namespace DBStream.Native.SQL_PARSER

inductive ParseValue where
  | OK
  | NOT_MATCH
  | INVALID
  | COMMENT
  | NOT_SUPPORT
  deriving DecidableEq

/-- The part of a handle that parser functions read and write. -/
structure Session (U : Type) where
  dbName : List UInt8
  userData : Option U
  deriving DecidableEq

/-- `parserFuncType`. -/
abbrev ParserFunc (U : Type) := SQLValue → Session U → ParseValue × Session U

/-- `handle`.  A new handle has an empty `dbName` and null pointers. -/
structure Handle (U : Type) where
  session : Session U := ⟨[], none⟩
  sql : Option Sql := none
  statuses : List (StatusInfo (ParserFunc U)) := []

/-- `createUserData` of the parser functions for MySQL, the `m_initUserDataFunc` that is loaded. -/
def createUserData {U : Type} (h : Session U) : Session U := { h with userData := none }

/-- `sqlParser`: the loaded parse tree, the places of its heads in the order of their names, and the
function that initialises user data. -/
structure SqlParser (U : Type) where
  m_parseTree : ParseTree (ParserFunc U)
  m_parseTreeHead : List Nat
  m_initUserDataFunc : Option (Session U → Session U)

/-- `while (sql[0] == ';') sql = nextWord(sql + 1)`. -/
def skipSemicolons : Nat → Sql → Option Sql
  | 0, _ => none
  | n + 1, sql =>
    match sql with
    | 59 :: rest => do skipSemicolons n (← nextWord rest)
    | _ => some sql

/-- The loop over the statuses of a handle: `none` at the first that is not processed. -/
def processStatuses {U : Type} :
    List (StatusInfo (ParserFunc U)) → Session U → Option (Session U)
  | [], h => some h
  | s :: rest, h =>
    match s.parserFunc s.value h with
    | (.OK, h) => processStatuses rest h
    | _ => none

namespace SqlParser

variable {U : Type} (p : SqlParser U)

/-- The search for a head that matches: the statuses it records and the position behind it. -/
def matchHeads (fuel : Nat) : List Nat → List (StatusInfo (ParserFunc U)) → Sql →
    Option (Option (List (StatusInfo (ParserFunc U)) × Sql))
  | [], _, _ => some none
  | head :: heads, h, sql => do
    let st ← (SQLWord.array head).match p.m_parseTree fuel h sql
    if st.matched then return some (st.statuses, st.sql)
    else matchHeads fuel heads st.statuses sql

/-- `m_initUserDataFunc`, if there is one. -/
def init (h : Session U) : Session U :=
  match p.m_initUserDataFunc with
  | none => h
  | some f => f h

/-- The loop of `parse`.  The handles are `h` and, the newest first, those behind it;
`currentHandle` is the newest. -/
def parseLoop (fuel : Nat) : Nat → Handle U → List (Handle U) → Sql →
    Option (ParseValue × List (Handle U))
  | 0, _, _, _ => none
  | n + 1, h, others, sql => do
    match ← p.matchHeads fuel p.m_parseTreeHead [] sql with
    | none => return (.NOT_MATCH, [])
    | some (statuses, tmp) =>
      let (h, others) : Handle U × List (Handle U) :=
        match others with
        | [] => ({ h with statuses := statuses }, [])
        | current :: older => (h, { current with statuses := statuses } :: older)
      -- from here on the source works on the first handle, not on the current one
      let h := { h with sql := some sql }
      let sql ← nextWord tmp
      match processStatuses statuses (p.init h.session) with
      | none => return (.NOT_MATCH, [])
      | some session =>
        let h := { h with session := session }
        let sql ← skipSemicolons (sql.length + 1) sql
        if sql = [] then return (.OK, h :: others.reverse)
        else
          let current := others.headD h
          let h :=
            if current.session.dbName ≠ [] then
              { h with session := { h.session with dbName := current.session.dbName } }
            else h
          parseLoop fuel n h ({} :: others) sql

/-- `parse`: the return value and the list of handles, which is empty for `nullptr`. -/
def parse (fuel : Nat) (database : List UInt8) (sql : Sql) :
    Option (ParseValue × List (Handle U)) :=
  p.parseLoop fuel fuel { session := ⟨database, none⟩ } [] sql

end SqlParser

/-- The loop of `metaDataCollection::processDDL`: the DDLs it processes, in order. -/
def processedDDLs {U : Type} (hs : List (Handle U)) : List U := hs.filterMap (·.session.userData)

end DBStream.Native.SQL_PARSER
