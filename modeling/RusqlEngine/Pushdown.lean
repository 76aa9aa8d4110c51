import RusqlEngine.Delete
import Mathlib.Data.List.DropRight

/-!
# Conjuncts of WHERE that are tested before a join

`exec_select` drops the rows of a table that fail an AND-ed part of the WHERE over that table alone
before the join, and evaluates the whole WHERE again behind it. A cross join whose WHERE pairs
columns of two tables becomes an inner join. A joined row holds a table's cells under
`<qualifier>.<column>`, and under their names where these are free.
-/

namespace RusqlEngine.Pushdown

/-- The order in which an `std::unordered_map` goes through its keys. -/
structure MapOrder where
  keys : Row → List String
  mem_keys : ∀ row k, k ∈ keys row ↔ (row.find k).isSome

/-- What stands before and after the last dot. -/
def lastDot (name : String) : Option (String × String) :=
  if '.' ∈ name.toList then
    some (String.ofList (name.toList.rdropWhile (· ≠ '.')).dropLast,
      String.ofList (name.toList.rtakeWhile (· ≠ '.')))
  else none

/-- `last_name_part`. -/
def lastPart (name : String) : String :=
  String.ofList (name.toList.rtakeWhile (· ≠ '.'))

def endsWith (suffix key : String) : Bool :=
  suffix.toList.isSuffixOf key.toList

/-- The name of a trigger's `NEW.x` or `OLD.x` with its column in lower case, where that is
another name. -/
def newOldKey (col : String) : Option String :=
  match col.toList with
  | a :: b :: c :: '.' :: rest =>
    let lower := String.ofList (a :: b :: c :: '.' :: rest.map Char.toLower)
    if rest ≠ [] ∧ ([a, b, c] = ['N', 'E', 'W'] ∨ [a, b, c] = ['O', 'L', 'D']) ∧ lower ≠ col then
      some lower
    else none
  | _ => none

def getCol (ord : MapOrder) (row : Row) (col : String) : Option String :=
  match row.find col with
  | some v => some v
  | none =>
    match (newOldKey col).bind row.find with
    | some v => some v
    | none =>
      match lastDot col with
      | some (q, c) =>
        match (ord.keys row).find? (endsWith ("." ++ q ++ "." ++ c)) with
        | some k => row.find k
        | none => row.find c
      | none =>
        match (ord.keys row).filter (endsWith ("." ++ col)) with
        | [k] => row.find k
        | _ => none

/-- `merged.emplace(k, v)`. -/
def emplace (row : Row) (k v : String) : Row :=
  if (row.find k).isSome then row else row.set k v

def mergeRight (ord : MapOrder) (merged right : Row) (table : String) : Row :=
  (ord.keys right).foldl (fun merged k =>
    emplace (merged.set (table ++ "." ++ k) ((right.find k).getD "")) k ((right.find k).getD ""))
    merged

def nullRight (merged : Row) (cols : List String) (table : String) : Row :=
  cols.foldl (fun merged col =>
    emplace (merged.set (table ++ "." ++ col) executorNull) col executorNull) merged

inductive Operator
  | eq | ne | gt | lt | gte | lte
  | like | notLike | regexp | notRegexp
  | isNull | isNotNull
  | between | notBetween
  | isIn | notIn
  | exists | notExists
deriving DecidableEq, Repr

/-- `ConditionValue`; the bounds, the list and the expression are part of what the comparison is
known by. -/
inductive CondValue
  | literal (value : String) (quoted : Bool)
  | between
  | literalList
  | arith
  | subquery
deriving DecidableEq, Repr

/-- A comparison: the column on its left where there is nothing else, its value, whether there is a
subquery in it, and the number the rest of it is known by. -/
structure Leaf where
  column : Option String
  op : Operator
  value : CondValue
  hasSubquery : Bool
  id : Nat
deriving DecidableEq, Repr

inductive Cond
  | leaf (condition : Leaf)
  | and (lhs rhs : Cond)
  | or (lhs rhs : Cond)
  | not (inner : Cond)
deriving DecidableEq, Repr

/-- The evaluation of comparisons: one with a column and a constant from what these are found to
hold, any other from the whole row. -/
structure Evaluator where
  ord : MapOrder
  isNumber : String → Bool
  constant : Leaf → Option String → Option String → Tri
  other : Leaf → Row → Tri
  eq_null : ∀ leaf right, leaf.op = .eq → constant leaf (some executorNull) right ≠ .true

/-- An unquoted literal that looks like a name (`is_ident_like`). -/
def identLike (isNumber : String → Bool) (value : String) (quoted : Bool) : Bool :=
  !quoted && (match value.toList with
    | [] => false
    | c :: _ => c.isAlpha || c == '_') && !isNumber value

namespace Evaluator

variable (ev : Evaluator)

/-- What a literal that looks like a name is found to hold. -/
def wordValue (row : Row) : CondValue → Option String
  | .literal value quoted =>
    if identLike ev.isNumber value quoted then getCol ev.ord row value else none
  | _ => none

def evalSingle3 (row : Row) (leaf : Leaf) : Tri :=
  match leaf.column, leaf.value with
  | some col, .literal value quoted =>
    ev.constant leaf (getCol ev.ord row col) (ev.wordValue row (.literal value quoted))
  | some col, .between => ev.constant leaf (getCol ev.ord row col) none
  | some col, .literalList => ev.constant leaf (getCol ev.ord row col) none
  | _, _ => ev.other leaf row

def evalCond3 (row : Row) : Cond → Tri
  | .leaf condition => ev.evalSingle3 row condition
  | .and lhs rhs =>
    let l := evalCond3 row lhs
    if l = .false then .false
    else
      let r := evalCond3 row rhs
      if r = .false then .false
      else if l = .true ∧ r = .true then .true else .unknown
  | .or lhs rhs =>
    let l := evalCond3 row lhs
    if l = .true then .true
    else
      let r := evalCond3 row rhs
      if r = .true then .true
      else if l = .false ∧ r = .false then .false else .unknown
  | .not inner =>
    match evalCond3 row inner with
    | .true => .false
    | .false => .true
    | .unknown => .unknown

def evalCondexpr (row : Row) (cond : Cond) : Bool :=
  ev.evalCond3 row cond == .true

end Evaluator

/-- `cond_has_any_subquery`. -/
def Cond.hasSubquery : Cond → Bool
  | .leaf condition => condition.hasSubquery
  | .and lhs rhs => lhs.hasSubquery || rhs.hasSubquery
  | .or lhs rhs => lhs.hasSubquery || rhs.hasSubquery
  | .not inner => inner.hasSubquery

def Cond.andConjuncts : Cond → List Cond
  | .and lhs rhs => lhs.andConjuncts ++ rhs.andConjuncts
  | cond => [cond]

/-- A table of the scope: `names`, `bare` and `columns`. -/
structure ScopeTable where
  name : String
  bare : String
  columns : List String
deriving DecidableEq, Repr

def columnOwner (scope : List ScopeTable) (name : String) : Option Nat :=
  match lastDot name with
  | some (q, c) =>
    (scope.findIdx? fun t => q == t.name || q == t.bare).bind fun i =>
      if (scope[i]?.elim [] ScopeTable.columns).contains c then some i else none
  | none => scope.findIdx? fun t => t.columns.contains name

/-- The operators `leaf_owner` takes. -/
def Operator.plain : Operator → Bool
  | .exists | .notExists => false
  | _ => true

def leafOwner (isNumber : String → Bool) (scope : List ScopeTable) (leaf : Leaf) : Option Nat :=
  match leaf.column with
  | none => none
  | some col =>
    if col.toLower = "true" ∨ col.toLower = "false" then none
    else if leaf.op.plain = false then none
    else
      match leaf.value with
      | .literal value quoted =>
        if identLike isNumber value quoted ∧
            ('.' ∈ value.toList ∨ scope.any (fun t => t.columns.contains value)) then
          none
        else columnOwner scope col
      | .between | .literalList => columnOwner scope col
      | .arith | .subquery => none

def exprOwner (isNumber : String → Bool) (scope : List ScopeTable) : Cond → Option Nat
  | .leaf condition => leafOwner isNumber scope condition
  | .and lhs rhs =>
    let l := exprOwner isNumber scope lhs
    if l = exprOwner isNumber scope rhs then l else none
  | .or lhs rhs =>
    let l := exprOwner isNumber scope lhs
    if l = exprOwner isNumber scope rhs then l else none
  | .not inner => exprOwner isNumber scope inner

inductive JoinType
  | inner | left | right | fullOuter | cross
deriving DecidableEq, Repr

def Keyed (columns : List String) (rows : List Row) : Prop :=
  ∀ r ∈ rows, ∀ k, (r.find k).isSome ↔ k ∈ columns ∨ k = "_xmin" ∨ k = "_xmax"

/-- A joined table with the rows the statement sees of it. `plain`: a table of the catalog, no
LATERAL and no subquery. -/
structure Join where
  joinType : JoinType
  qualifier : String
  columns : List String
  plain : Bool
  on : Cond
  rows : List Row
  keyed : Keyed columns rows

/-- The FROM table, the joins and the WHERE. -/
structure Query where
  table : String
  columns : List String
  known : Bool
  rows : List Row
  keyed : Keyed columns rows
  joins : List Join
  condition : Option Cond

namespace Query

variable (q : Query)

/-- The tables as the statement names them. -/
def scope : List ScopeTable :=
  { name := q.table, bare := lastPart q.table, columns := q.columns } ::
    q.joins.map fun j =>
      { name := j.qualifier, bare := lastPart j.qualifier, columns := j.columns }

def allKnown : Bool :=
  q.known && q.joins.all Join.plain

def scopeOk : Bool :=
  !q.joins.isEmpty && q.allKnown && decide (q.scope.map ScopeTable.bare).Nodup

def parts : List Cond :=
  q.condition.elim [] Cond.andConjuncts

def pushes : Bool :=
  q.scopeOk && !(q.condition.elim false Cond.hasSubquery) &&
    q.joins.all fun j => j.joinType == .inner || j.joinType == .left

/-- `pushed[i]`: 0 is the FROM table, then the joined tables in order. -/
def pushed (isNumber : String → Bool) (i : Nat) : List Cond :=
  if q.pushes then
    q.parts.filter fun part => exprOwner isNumber q.scope part == some i &&
      (i == 0 || (q.joins[i - 1]?.elim false fun j => j.joinType == .inner))
  else []

/-- The conjuncts of the WHERE that a cross join is joined on. -/
def crossParts (i : Nat) : List Cond :=
  q.parts.filter fun part =>
    match part with
    | .leaf { column := some l, op := .eq, value := .literal r false, .. } =>
      (lastDot l).isSome && (lastDot r).isSome &&
        (match columnOwner q.scope l, columnOwner q.scope r with
        | some lo, some ro => lo != ro && max lo ro == i + 1
        | _, _ => false)
    | _ => false

/-- `and_of` over the parts. -/
def andOf : List Cond → Option Cond
  | [] => none
  | part :: parts => some (parts.foldl Cond.and part)

/-- A cross join as `resolve_join_columns` leaves it. -/
def resolveJoin (i : Nat) (j : Join) : Join :=
  if j.joinType = .cross ∧ j.plain = true then
    match andOf (q.crossParts i) with
    | some on => { j with joinType := .inner, on := on }
    | none => j
  else j

def resolved : Query :=
  if q.allKnown then { q with joins := q.joins.mapIdx q.resolveJoin } else q

/-- The keys a RIGHT or FULL join pads its left side with, at the join `n`. -/
def leftPad (n : Nat) : List String :=
  q.columns ++ (q.joins.take n).flatMap fun j =>
    j.columns.flatMap fun c => [j.qualifier ++ "." ++ c, c]

end Query

/-- A joined row, and the rows of the tables it was made of (`none` where it was padded). -/
structure Joined where
  parts : List (Option Row)
  row : Row

section

variable (ev : Evaluator)

/-- The row of a pair, when it meets the ON condition. -/
def Join.pair (j : Join) (on : Joined → Bool) (l : Joined) (r : Row) : Option Joined :=
  let merged : Joined :=
    { parts := l.parts ++ [some r], row := mergeRight ev.ord l.row r j.qualifier }
  if on merged then some merged else none

def Join.padRight (j : Join) (l : Joined) : Joined where
  parts := l.parts ++ [none]
  row := nullRight l.row j.columns j.qualifier

/-- A right row that no left row matched, behind `n` tables. -/
def Join.padLeft (j : Join) (n : Nat) (keys : List String) (r : Row) : Joined where
  parts := List.replicate n none ++ [some r]
  row := mergeRight ev.ord (keys.foldl (fun (row : Row) k => row.set k executorNull) ∅) r
    j.qualifier

/-- `nested_loop_join` with the rows `right`. -/
def Join.join (j : Join) (n : Nat) (keys : List String) (current : List Joined)
    (right : List Row) : List Joined :=
  let onMatch : Joined → Bool := fun m => ev.evalCondexpr m.row j.on
  match j.joinType with
  | .inner => current.flatMap fun l => right.filterMap (j.pair ev onMatch l)
  | .cross => current.flatMap fun l => right.filterMap (j.pair ev (fun _ => true) l)
  | .left => current.flatMap fun l =>
    match right.filterMap (j.pair ev onMatch l) with
    | [] => [j.padRight l]
    | found => found
  | .right => right.flatMap fun r =>
    match current.filterMap (fun l => j.pair ev onMatch l r) with
    | [] => [j.padLeft ev n keys r]
    | found => found
  | .fullOuter =>
    (current.flatMap fun l =>
      match right.filterMap (j.pair ev onMatch l) with
      | [] => [j.padRight l]
      | found => found) ++
    (right.filter fun r => (current.filterMap fun l => j.pair ev onMatch l r).isEmpty).map
      (j.padLeft ev n keys)

def takeRows (conds : List Cond) (rows : List Row) : List Row :=
  rows.filter fun r => conds.all (ev.evalCondexpr r)

namespace Query

variable (q : Query)

/-- The joins one after another, the table `i` filtered by the conditions `filters i`. -/
def joinAll (filters : Nat → List Cond) : List Join → Nat → List Joined → List Joined
  | [], _, current => current
  | j :: joins, n, current =>
    joinAll filters joins (n + 1)
      (j.join ev n (q.leftPad (n - 1)) current (takeRows ev (filters n) j.rows))

/-- The joined rows, from the filtered rows of the tables. -/
def joined (filters : Nat → List Cond) : List Joined :=
  q.joinAll ev filters q.joins 1
    ((takeRows ev (filters 0) q.rows).map fun r => { parts := [some r], row := r })

def whereRows (rows : List Joined) : List Joined :=
  rows.filter fun m => q.condition.elim true (ev.evalCondexpr m.row)

/-- The rows of `exec_select` before its output is shaped. -/
def selected : List Joined :=
  q.resolved.whereRows ev (q.resolved.joined ev (q.resolved.pushed ev.isNumber))

def unfiltered : List Joined :=
  q.whereRows ev (q.joined ev fun _ => [])

end Query

end

end RusqlEngine.Pushdown
