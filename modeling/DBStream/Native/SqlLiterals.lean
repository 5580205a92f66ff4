import DBStream.Native.Record
import DBStream.Native.SqlWord

/-!
# Literals of the SQL parser

`SQLArrayWord`, `SQLIntNumberWord` and `SQLBracketsWord` of `sqlParser/sqlWord.cpp`, called for their
values.  A `match` gives the value and the new `sql`, or nothing if it does not match; a blank that is
never left behind is an endless loop.  Signed numbers wrap around.
-/

namespace DBStream.Native.SQL_PARSER

/-- `nextWord`. -/
def startOf (sql : Sql) : Exec Sql :=
  match nextWord sql with
  | none => .error .endless
  | some p => .ok p

/-! ## `SQLArrayWord` -/

namespace SQLArrayWord

/-- `escapeCount` at a place; the text before it is read backwards. -/
def escapeCount (before : Sql) : Nat := (before.takeWhile (· = 92)).length + 1

/-- The search for the end: how many characters are before it. -/
def findEnd (quote : UInt8) : (before : Sql) → Sql → Option Nat
  | _, [] => none
  | before, c :: rest =>
    if c = quote ∧ escapeCount before % 2 = 1 then some 0
    else (findEnd quote (c :: before) rest).map (· + 1)

/-- The character of an escape. -/
def escaped (c : UInt8) : UInt8 :=
  if c = 116 then 9 else if c = 114 then 13 else if c = 110 then 10 else if c = 48 then 0 else c

/-- The loop over the characters before `length`, of which `todo` are left. -/
def unescape : (todo : Nat) → Sql → List UInt8
  | todo + 1, 92 :: c :: rest => escaped c :: unescape (todo - 1) rest
  | todo + 1, c :: rest => c :: unescape todo rest
  | _, _ => []

/-- `stringValue::assign`.  Its parameter `quote` hides the member, so with `false` it deletes the
    buffer it is given, and what is read from the value later has been freed. -/
def assign (name : List UInt8) (quote : Bool) : Exec (List UInt8) :=
  if quote then .ok name else .error .dangling

/-- The value, of what is behind the opening quote. -/
def valueOf (text : Sql) (size : Nat) : Exec (List UInt8) :=
  if 92 ∈ text.take size then
    let length := (size : Int).bmod (2 ^ 32)
    -- `new char[length]`
    if length < 0 then .error .abort else assign (unescape (length.toNat - 1) text) false
  else assign (text.take (size % 2 ^ 32)) true

end SQLArrayWord

open SQLArrayWord in
def SQLArrayWord.match (sql : Sql) : Exec (Option (List UInt8 × Sql)) := do
  match ← startOf sql with
  | [] => return none
  | quote :: text =>
    if quote = 39 ∨ quote = 34 then
      match findEnd quote [quote] text with
      | none => return none
      | some size => return some (← valueOf text size, text.drop (size + 1))
    else return none

/-! ## `SQLIntNumberWord` -/

namespace SQLIntNumberWord

def isDigit (c : UInt8) : Bool := 48 ≤ c ∧ c ≤ 57

/-- The sign, if there is one, and what is behind it. -/
def readSign : Sql → Bool × Sql
  | 45 :: n => (false, n.dropWhile (· = 32))
  | 43 :: n => (true, n.dropWhile (· = 32))
  | n => (true, n)

/-- The loop over the digits, which stops at an overflow that it sees. -/
def readDigits : (v : Int) → Sql → Option (Int × Sql)
  | v, [] => some (v, [])
  | v, c :: n =>
    if isDigit c then
      let tmp := (v * 10 + (c.toNat - 48)).bmod (2 ^ 64)
      if tmp < v then none else readDigits tmp n
    else some (v, c :: n)

/-- Whether the number that begins at `p` may end at `n`. -/
def endsAt (p n : Sql) : Bool :=
  match n with
  | [] => n ≠ p
  | c :: _ => if isKeyChar c then n ≠ p ∧ c ≠ 46 else isSpaceOrComment n

end SQLIntNumberWord

open SQLIntNumberWord in
def SQLIntNumberWord.match (sql : Sql) : Exec (Option (Int × Sql)) := do
  let p ← startOf sql
  let (sign, n) := readSign p
  match readDigits 0 n with
  | none => return none
  | some (v, n) => return if endsAt p n then some (if sign then v else -v, n) else none

/-! ## `SQLBracketsWord` -/

namespace SQLBracketsWord

/-- The search for the closing bracket: how many characters are before it. -/
def findEnd : (bracketCount : Int) → Sql → Option Nat
  | _, [] => none
  | bracketCount, c :: rest =>
    if c = 40 then (findEnd ((bracketCount + 1).bmod (2 ^ 32)) rest).map (· + 1)
    else if c = 41 then
      let bracketCount := (bracketCount - 1).bmod (2 ^ 32)
      if bracketCount ≤ 0 then some 0 else (findEnd bracketCount rest).map (· + 1)
    else (findEnd bracketCount rest).map (· + 1)

end SQLBracketsWord

open SQLBracketsWord in
def SQLBracketsWord.match (sql : Sql) : Exec (Option (List UInt8 × Sql)) := do
  match ← startOf sql with
  | 40 :: text =>
    match findEnd 1 text with
    | none => return none
    | some size => return some (text.take (size % 2 ^ 32), text.drop (size + 1))
  | _ => return none

end DBStream.Native.SQL_PARSER
