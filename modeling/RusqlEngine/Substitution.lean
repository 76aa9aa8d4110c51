import RusqlEngine.Keys
import RusqlEngine.Lexer

/-!
# Variables in statements

Before a statement runs, every place of it that names a variable takes the variable's value. The
values of an INSERT and the right sides of conditions are texts, with markers for an expression, for
DEFAULT and for NULL. Expressions and queries are parameters: what the substitution makes of one,
and what an encoded expression is worth.
-/

namespace RusqlEngine

def insertDefault : List Char :=
  "__INSERT_DEFAULT__".toList

def nullDefault : List Char :=
  "__NULL_DEFAULT__".toList

def nullMarker : List Char :=
  "__NULL__".toList

/-- `EXECUTOR_NULL_VALUE`. -/
def nullText : List Char :=
  executorNull.toList

/-- How many tokens a value takes that is no expression. -/
def plainLength : List Token → Nat
  | [] => 0
  | t :: rest =>
    if t.kind = .stringLit ∨ t.kind = .numberLit ∨ t.kind = .keyword "NULL" then 1
    else if t.kind = .ident then (if rest.head?.any (·.kind = .dot) then 3 else 1)
    else if t.kind = .at then 2
    else if t.kind = .keyword "NEW" ∨ t.kind = .keyword "OLD" then 3
    else 0

/-- The value ends where its list, or the assignment of a SET, goes on. -/
def isPlainValue (setForm : Bool) (tokens : List Token) : Bool :=
  let after := tokens[plainLength tokens]?
  plainLength tokens ≠ 0 && (after.any (·.kind = .comma) ||
    if setForm then after.all fun t =>
      t.kind = .semicolon || t.kind = .keyword "ON" || t.kind = .keyword "RETURNING"
    else after.any (·.kind = .rParen))

/-- `Parser::parse_insert_value`: the value and the tokens after it. Reading an expression and
a name are given. -/
def parseInsertValue
    (parseValueExpr expectIdent : List Token → Except String (List Char × List Token))
      (setForm : Bool)
    (tokens : List Token) : Except String (List Char × List Token) :=
  match tokens with
  | [] => .error "Expected value"
  | t :: rest =>
    if t.kind = .keyword "DEFAULT" then .ok (insertDefault, rest)
    else if isPlainValue setForm tokens = false then do
      let (encoded, rest) ← parseValueExpr tokens
      return ('\x01' :: encoded, rest)
    else match t.kind with
      | .stringLit | .numberLit => .ok (t.text, rest)
      | .ident =>
        if rest.head?.any (·.kind = .dot) then do
          let (name, rest) ← expectIdent rest.tail
          return (t.text ++ '.' :: name, rest)
        else .ok (t.text, rest)
      | .at => do
          let (name, rest) ← expectIdent rest
          return ('@' :: name, rest)
      | .keyword "NULL" => .ok (nullText, rest)
      | .keyword qualifier =>
        if rest.head?.any (·.kind = .dot) then do
          let (name, rest) ← expectIdent rest.tail
          return (qualifier.toList ++ '.' :: name, rest)
        else .error "Expected '.' after NEW / OLD"
      | _ => .error "Expected value"

abbrev VarMap := List (List Char × List Char)

def isWordChar (c : Char) : Bool :=
  c.isAlphanum || c = '_'

def lowerText (text : List Char) : List Char :=
  text.map Char.toLower

structure Vars where
  proc : VarMap
  user : VarMap
  row : Option VarMap

namespace Vars

/-- The text after the first `@` is the name of a user or a server variable. -/
def isUserName : List Char → Bool
  | '@' :: c :: cs => (c :: cs).all isWordChar
  | c :: cs => (c :: cs).all isWordChar
  | [] => false

/-- The row of a trigger by a text: with the column in lower case, else as it is. -/
def rowValue (row : VarMap) (name : List Char) : Option (List Char) :=
  (if 4 < name.length ∧ name[3]? = some '.' then
    row.lookup (name.take 4 ++ lowerText (name.drop 4)) else none).or (row.lookup name)

/-- The variable of a routine by its name, else by its name apart from case. -/
def procValue (proc : VarMap) (name : List Char) : Option (List Char) :=
  (proc.lookup name).or
    ((proc.find? fun v => lowerText v.1 = lowerText name).map (·.2))

def value (v : Vars) : List Char → Option (List Char)
  | [] => none
  | '@' :: name => if isUserName name then some ((v.user.lookup (lowerText name)).getD nullText)
      else none
  | name => (v.row.bind fun row => rowValue row name).or (procValue v.proc name)

def textOf (v : Vars) (text : List Char) : List Char :=
  (v.value text).getD text

/-- There is nothing to put in: `substitute_variables` returns at once. -/
def isEmpty (v : Vars) : Bool :=
  v.proc.isEmpty && v.user.isEmpty && v.row.isNone

end Vars

/-- What the model takes of expressions: the substitution in an encoded one and its worth, in
expressions and in queries, and whether a text is a number. -/
structure ExprEnv (A Q : Type) where
  rewriteEncoded : Vars → List Char → Except String (List Char)
  evalEncoded : Vars → List Char → Except String (List Char)
  hasSubquery : List Char → Bool
  arith : Vars → A → A
  query : Vars → Q → Q
  parsesNumber : List Char → Bool

/-- An expression, by what the right side of a condition makes of it. -/
inductive ArithExpr (A : Type)
  | col (name : List Char)
  | num (text : List Char)
  | str (text : List Char)
  | compound (expr : A)

/-- A text on the right side of a condition, and whether it stood in quotes. -/
structure Literal where
  value : List Char
  quoted : Bool
deriving DecidableEq

inductive ConditionValue (A Q : Type)
  | literal (l : Literal)
  | literalList (ls : List Literal)
  | between (lo hi : Literal)
  | arith (expr : A)
  | subquery (q : Q)

/-- The condition of a WHERE. -/
inductive WhereExpr (A Q : Type)
  | leaf (left : A) (value : ConditionValue A Q)
  | and (lhs rhs : WhereExpr A Q)
  | or (lhs rhs : WhereExpr A Q)
  | not (inner : WhereExpr A Q)

def conditionValueOf {A Q : Type} : ArithExpr A → ConditionValue A Q
  | .col name => .literal ⟨name, false⟩
  | .num text => .literal ⟨text, false⟩
  | .str text => .literal ⟨text, true⟩
  | .compound expr => .arith expr

namespace ExprEnv

variable {A Q : Type}

/-- The literal of a comparison. -/
def literal (env : ExprEnv A Q) (v : Vars) (l : Literal) : Literal :=
  match v.value l.value with
  | none => l
  | some value =>
    ⟨if value = nullText then nullMarker else value,
      decide (value ≠ nullText) && !env.parsesNumber value⟩

/-- An item of an IN list. -/
def listItem (env : ExprEnv A Q) (v : Vars) (l : Literal) : Literal :=
  let replaced := v.textOf l.value
  if replaced = l.value then l
  else ⟨replaced, decide (replaced ≠ nullText) && !env.parsesNumber replaced⟩

/-- A bound of BETWEEN. -/
def bound (env : ExprEnv A Q) (v : Vars) (l : Literal) : Literal :=
  let replaced := v.textOf l.value
  ⟨replaced, if replaced ≠ l.value then !env.parsesNumber replaced else l.quoted⟩

def conditionValue (env : ExprEnv A Q) (v : Vars) : ConditionValue A Q → ConditionValue A Q
  | .literal l => .literal (env.literal v l)
  | .literalList ls => .literalList (ls.map (env.listItem v))
  | .between lo hi => .between (env.bound v lo) (env.bound v hi)
  | .arith expr => .arith (env.arith v expr)
  | .subquery q => .subquery (env.query v q)

def cond (env : ExprEnv A Q) (v : Vars) : WhereExpr A Q → WhereExpr A Q
  | .leaf left value => .leaf (env.arith v left) (env.conditionValue v value)
  | .and lhs rhs => .and (env.cond v lhs) (env.cond v rhs)
  | .or lhs rhs => .or (env.cond v lhs) (env.cond v rhs)
  | .not inner => .not (env.cond v inner)

/-- `substitute_variables` on the condition of a statement. -/
def substituteCondition (env : ExprEnv A Q) (v : Vars) (e : WhereExpr A Q) : WhereExpr A Q :=
  if v.isEmpty then e else env.cond v e

/-- `substitute_variables` on a value of an INSERT. -/
def substituteInsertValue (env : ExprEnv A Q) (v : Vars) (value : List Char) :
    Except String (List Char) :=
  if v.isEmpty then .ok value
  else match value with
    | '\x01' :: encoded => (env.rewriteEncoded v encoded).map ('\x01' :: ·)
    | value => .ok (v.textOf value)

/-- `evaluate_insert_expressions` on a value; an expression with a subquery waits until the
statement runs. -/
def evaluateInsertValue (env : ExprEnv A Q) (v : Vars) (routing : Bool) :
    List Char → Except String (List Char)
  | '\x01' :: encoded =>
    if routing && env.hasSubquery encoded then .ok ('\x01' :: encoded)
    else env.evalEncoded v encoded
  | value => .ok value

end ExprEnv

/-- Where a statement runs: by itself, in a routine with its variables, or in a trigger with the
rows OLD and NEW. -/
inductive Place
  | top
  | routine (proc : VarMap)
  | trigger (oldRow newRow : VarMap)

namespace Place

/-- The variables `OLD.x` and `NEW.x` of a row; the system cells have none. -/
def rowVars (qualifier : String) (row : VarMap) : VarMap :=
  (row.filter fun c => c.1.head?.any (· ≠ '_')).map fun c =>
    (qualifier.toList ++ lowerText c.1, c.2)

/-- What `substitute_variables` is given, pass by pass. The values of a trigger's row are
variables of its body too. -/
def passes (user : VarMap) : Place → List Vars
  | .top => [⟨[], user, none⟩]
  | .routine proc => [⟨proc, user, none⟩]
  | .trigger oldRow newRow =>
    let vars := rowVars "OLD." oldRow ++ rowVars "NEW." newRow
    [⟨vars, user, some vars⟩, ⟨vars, user, none⟩]

def runVars (user : VarMap) (place : Place) : Vars :=
  (place.passes user).getLast?.getD ⟨[], user, none⟩

end Place

/-- A TEXT column, as a value comes to it. -/
structure TextColumn where
  name : String
  notNull : Bool
  defaultValue : Option (List Char)

/-- What an INSERT stores in a TEXT column; `now` is the time of the statement. -/
def TextColumn.store (col : TextColumn) (now value : List Char) : Except String (List Char) :=
  let value :=
    if value ≠ insertDefault then value
    else match col.defaultValue with
      | none => value
      | some text =>
        if text = nullDefault then nullText
        else if text.map Char.toUpper = "NOW()".toList ∨
          text.map Char.toUpper = "CURRENT_TIMESTAMP".toList then now
        else text
  if col.notNull ∧ value = insertDefault then
    .error ("Field '" ++ col.name ++ "' doesn't have a default value")
  else if col.notNull ∧ value = nullText then
    .error ("Column '" ++ col.name ++ "' cannot be NULL")
  else if value = insertDefault then .ok nullText
  else .ok value

namespace ExprEnv

variable {A Q : Type}

/-- A value of an INSERT when the statement is routed to a partition, before it runs. -/
def routedValue (env : ExprEnv A Q) (user : VarMap) (place : Place) (value : List Char) :
    Except String (List Char) :=
  match place with
  | .top => env.evaluateInsertValue (place.runVars user) true value
  | _ => .ok value

/-- A value of an INSERT, from the parser to a TEXT column. -/
def insertedText (env : ExprEnv A Q) (user : VarMap) (place : Place) (col : TextColumn)
    (now value : List Char) : Except String (List Char) := do
  let value ← env.routedValue user place value
  let value ← (place.passes user).foldlM (fun value v => env.substituteInsertValue v value) value
  let value ← env.evaluateInsertValue (place.runVars user) false value
  col.store now value

/-- The condition of a WHERE, from the parser to its evaluation. -/
def substitutedWhere (env : ExprEnv A Q) (user : VarMap) (place : Place) (e : WhereExpr A Q) :
    WhereExpr A Q :=
  (place.passes user).foldl (fun e v => env.substituteCondition v e) e

end ExprEnv

/-- What a comparison compares its left side with: nothing for NULL, a column for a bare word
that names one. -/
def Literal.compared (l : Literal) (cell : List Char → Option (List Char))
    (isNumber : List Char → Bool) : Option (List Char) :=
  let isIdentLike := !l.quoted && (l.value.head?.any fun c => c.isAlpha || c = '_') &&
    !isNumber l.value
  let effective := if isIdentLike then (cell l.value).getD l.value else l.value
  if effective = nullMarker ∨ effective = nullText then none else some effective

def Literal.comparedItem (l : Literal) : Option (List Char) :=
  if l.value = nullText then none else some l.value

end RusqlEngine
