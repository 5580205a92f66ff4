import DBStream.Native.SqlWord

/-!
# Loading a parse tree

`sqlParser::LoadParseTree` of `sqlParser/sqlParserEngine.cpp`, from the JSON objects of the
configuration on, and `SQLSingleWord::create`.  An array is the place at which it was allocated.
The functions of the library with the parser functions, and what the kinds of words match that the
model leaves open, are parameters.
-/

namespace DBStream.Native.SQL_PARSER

/-- `jsonValue`.  The keys of an object are different, or its text would not have been parsed. -/
inductive JsonValue where
  | J_STRING (m_value : List UInt8)
  | J_NUM (m_value : Int)
  | J_OBJECT (m_valueList : List (List UInt8 × JsonValue))
  | J_ARRAY (m_values : List JsonValue)
  | J_BOOL (m_value : Bool)

/-- The key-value pairs of a `jsonObject`. -/
abbrev JsonObject := List (List UInt8 × JsonValue)

/-- The bytes of a literal. -/
def ascii (s : List Char) : List UInt8 := s.map fun c => UInt8.ofNat c.toNat

def JsonObject.get (json : JsonObject) (key : List Char) : Option JsonValue :=
  List.lookup (ascii key) json

/-! ## Single words -/

/-- The kinds of words that `S_OTHER` stands for. -/
inductive OtherWord where
  | ARRAY
  | ANY_STRING
  | TABLE_NAME (hasAlias : Bool)
  | COLUMN_NAME
  | BRACKETS
  | INT_NUMBER
  | FLOAT_NUMBER
  | EXPRESSIONS (logicOrMath : Bool)
  | FUNCTION
  | VALUE_LIST
  deriving DecidableEq

/-- What the loader takes from elsewhere: the functions of the library by their names, and what the
other kinds of words match. -/
structure LoaderEnv (P : Type) where
  getFunc : List UInt8 → Option P
  run : OtherWord → Sql → Option (List SQLValue × Option Sql)

variable {P : Type} (env : LoaderEnv P)

/-- The kinds of words with a name of their own. -/
def otherWords : List (List Char × OtherWord) :=
  [(['_', 'A', '_'], .ARRAY), (['_', 'A', 'S', '_'], .ANY_STRING),
    (['_', 'T', 'A', 'B', 'L', 'E', '_'], .TABLE_NAME false),
    (['_', 'T', 'A', 'B', 'L', 'E', '_', 'A', '_'], .TABLE_NAME true),
    (['_', 'C', 'O', 'L', 'U', 'M', 'N', '_'], .COLUMN_NAME), (['_', 'B', '_'], .BRACKETS),
    (['_', 'I', 'N', 'T', '_'], .INT_NUMBER), (['_', 'F', 'L', 'O', 'A', 'T', '_'], .FLOAT_NUMBER),
    (['_', 'F', '_'], .FUNCTION), (['_', 'V', 'L', '_'], .VALUE_LIST)]

/-- The kind of word that a text of the configuration names. -/
def wordType (str : List UInt8) : Option SingleWordType :=
  let rest := str.drop 4
  if str = ascii ['_', 'N', '_'] then some .S_NAME
  else if str.take 4 = ascii ['_', 'S', '_', ':'] then some (.S_STRING rest)
  else if str.take 4 = ascii ['_', 'C', '_', ':'] then some (.S_CHAR (toLower (rest.headD 0)))
  else if str.take 4 = ascii ['_', 'E', '_', ':'] then
    if rest.map toLower = ascii ['l', 'o', 'g', 'i', 'c'] then
      some (.S_OTHER (env.run (.EXPRESSIONS true)))
    else if rest.map toLower = ascii ['m', 'a', 't', 'h'] then
      some (.S_OTHER (env.run (.EXPRESSIONS false)))
    else none
  else (otherWords.find? fun w => ascii w.1 = str).map fun w => .S_OTHER (env.run w.2)

def create (optional : Bool) (str : List UInt8) : Option (SQLSingleWord P) :=
  (wordType env str).map fun t => ⟨optional, t, none⟩

/-- The value of an optional key of type bool, which is false by default. -/
def getBool (json : JsonObject) (key : List Char) : Option Bool :=
  match json.get key with
  | none => some false
  | some (.J_BOOL b) => some b
  | some _ => none

/-- The parser function that a word names, if it names one. -/
def getParserFunc (json : JsonObject) : Option (Option P) :=
  match json.get ['F'] with
  | none => some none
  | some (.J_STRING name) => (env.getFunc name).map some
  | some _ => none

def loadSingleWordFromJson (json : JsonObject) : Option (SQLSingleWord P) := do
  let optional ← getBool json ['O', 'P', 'T']
  let func ← getParserFunc env json
  match json.get ['K'] with
  | some (.J_STRING str) => (create env optional str).map fun w => { w with m_parserFunc := func }
  | _ => none

/-- `getLoopCondition`.  An object as condition is never loaded: it has no name, and the lookup of
the null pointer in the map of names ends in an exception. -/
def getLoopCondition : JsonValue → Option (Option (SQLSingleWord P))
  | .J_STRING str =>
    if str.map toLower = ascii ['a', 'l', 'w', 'a', 'y', 's'] then some none
    else (create env false str).map some
  | _ => none

/-- Whether an array is a loop, and its condition. -/
def getLoop (json : JsonObject) : Option (Bool × Option (SQLSingleWord P)) :=
  match json.get ['L', 'O', 'O', 'P'] with
  | none => some (false, none)
  | some value => (getLoopCondition env value).map fun c => (true, c)

/-! ## Arrays -/

/-- The part of `sqlParser` that the loader builds: the arrays that have been allocated, those that
are only declared so far, those that have been included by name, and the two maps of names. -/
structure Loaded (P : Type) where
  arrays : List (SQLWordArray P)
  forwardDeclared : List Nat
  included : List Nat
  m_parseTree : List (List UInt8 × Nat)
  m_parseTreeHead : List (List UInt8 × Nat)

/-- The loader works on the parser and gives up at the first error. -/
abbrev Load (P : Type) := StateT (Loaded P) Option

/-- An array as `forwardDeclare` makes it. -/
def emptyArray : SQLWordArray P := ⟨false, [], false, false, none⟩

/-- The arrays as a parse tree. -/
def Loaded.tree (l : Loaded P) : ParseTree P := fun place => l.arrays.getD place emptyArray

/-- `new SQLWordArray`. -/
def newArray (a : SQLWordArray P) : Load P Nat := fun l =>
  some (l.arrays.length, { l with arrays := l.arrays ++ [a] })

def forwardDeclare : List JsonValue → Load P Unit
  | [] => pure ()
  | .J_STRING name :: rest => do
    let l ← get
    if (l.m_parseTree.lookup name).isNone then
      let place ← newArray emptyArray
      modify fun l => { l with
        forwardDeclared := place :: l.forwardDeclared
        m_parseTree := (name, place) :: l.m_parseTree }
    forwardDeclare rest
  | _ :: _ => failure

/-- The names that an array declares. -/
def declareNames (json : JsonObject) : Load P Unit :=
  match json.get ['D', 'E', 'C', 'L', 'A', 'R', 'E'] with
  | none => pure ()
  | some (.J_ARRAY values) => forwardDeclare values
  | some _ => failure

/-- The array that `loadWordArrayFromJson` fills: at the top one that has been declared under the
name, if there is one, else a new one. -/
def arrayToFill (name : List UInt8) (top : Option Nat) (a : SQLWordArray P) : Load P Nat := do
  let l ← get
  match top, l.m_parseTree.lookup name with
  | none, some place =>
    if place ∈ l.forwardDeclared then
      -- all fields but the words, of which there are none yet
      set { l with
        arrays := l.arrays.set place a
        forwardDeclared := l.forwardDeclared.erase place }
      return place
    else failure
  | _, _ => newArray a

def append (place : Nat) (w : SQLWord P) : Load P Unit :=
  modify fun l => { l with
    arrays := l.arrays.modify place fun a => { a with m_words := a.m_words ++ [w] } }

def getInclude (value topName : List UInt8) (top : Nat) : Load P Nat := do
  if value = topName then return top
  let l ← get
  match l.m_parseTree.lookup value with
  | none => failure
  | some place =>
    set { l with included := place :: l.included }
    return place

/-- A child of an array. -/
def loadChild (loadArray : JsonObject → Load P Nat) (name : List UInt8) (top : Nat) :
    JsonValue → Load P (SQLWord P)
  | .J_OBJECT json => do
    if (JsonObject.get json ['K']).isSome then
      return .single (← liftM (loadSingleWordFromJson env json))
    else if (JsonObject.get json ['C']).isSome then return .array (← loadArray json)
    else
      match JsonObject.get json ['I', 'N', 'C', 'L', 'U', 'D', 'E'] with
      | some (.J_STRING value) => return .array (← getInclude value name top)
      | _ => failure
  | _ => failure

/-- The loop over the children of an array. -/
def loadChildren (loadArray : JsonObject → Load P Nat) (name : List UInt8) (top place : Nat) :
    List JsonValue → Load P Unit
  | [] => pure ()
  | child :: rest => do
    append place (← loadChild env loadArray name top child)
    loadChildren loadArray name top place rest

/-- `loadWordArrayFromJson`, with fuel for the depth of the JSON text. -/
def loadWordArrayFromJson : Nat → JsonObject → List UInt8 → Option Nat → Load P Nat
  | 0, _, _, _ => failure
  | fuel + 1, json, name, top => do
    let optional ← liftM (getBool json ['O', 'P', 'T'])
    let OR ← liftM (getBool json ['O', 'R'])
    declareNames json
    let (loop, loopCondition) ← liftM (getLoop env json)
    match json.get ['C'] with
    | some (.J_ARRAY children) =>
      let array ← arrayToFill name top ⟨optional, [], OR, loop, loopCondition⟩
      let top := top.getD array
      loadChildren env (fun json => loadWordArrayFromJson fuel json name (some top)) name top array
        children
      return array
    | _ => failure

/-! ## The parse tree -/

/-- `map::insert`, which leaves a key that is there alone. -/
def insertName (key : List UInt8) (place : Nat) (names : List (List UInt8 × Nat)) :
    List (List UInt8 × Nat) :=
  if (names.lookup key).isSome then names else (key, place) :: names

/-- The test in `LoadParseTree` that a sentence has an array of children. -/
def checkChildren (sentence : JsonObject) : Option Unit :=
  match sentence.get ['C'] with
  | some (.J_ARRAY _) => some ()
  | _ => none

/-- The body of the loop of `LoadParseTree`, for one key of a segment. -/
def loadSentence (fuel : Nat) (key : List UInt8) : JsonValue → Load P Unit
  | .J_OBJECT sentence => do
    liftM (checkChildren sentence)
    let head ← liftM (getBool sentence ['H', 'E', 'A', 'D'])
    let s ← loadWordArrayFromJson env fuel sentence key none
    modify fun l => { l with
      included := s :: l.included
      m_parseTree := insertName key s l.m_parseTree
      m_parseTreeHead := if head then insertName key s l.m_parseTreeHead else l.m_parseTreeHead }
  | _ => failure

/-- The sentences of the segments, one after the other. -/
def loadSentences (fuel : Nat) : List (List UInt8 × JsonValue) → Load P Unit
  | [] => pure ()
  | (key, value) :: rest => do
    loadSentence env fuel key value
    loadSentences fuel rest

/-- `checkWords`: no array that is only declared is included or a head. -/
def Loaded.checkWords (l : Loaded P) : Bool :=
  l.m_parseTree.all fun w => w.2 ∉ l.forwardDeclared ∨
    w.2 ∉ l.included ∧ (l.m_parseTreeHead.lookup w.1).isNone

/-- `LoadParseTree` on the JSON objects of a configuration: the parser it leaves behind when it
returns 0. -/
def LoadParseTree (fuel : Nat) (config : List JsonObject) : Option (Loaded P) := do
  let (_, l) ← loadSentences env fuel config.flatten ⟨[], [], [], [], []⟩
  if l.checkWords then return l else none

end DBStream.Native.SQL_PARSER
