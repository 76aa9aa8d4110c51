import RusqlEngine.Delete
import RusqlEngine.RecursiveCte
import RusqlEngine.ResultText
import RusqlEngine.Library.Transition

/-!
# Subqueries in conditions

`eval_single_with_subquery` answers `EXISTS`, `IN`, `op ANY`, `op ALL` and the membership of a row
from the text a subquery printed. One that names no column of the outer row runs once for a
statement: what was read from its text is kept in three caches, by its address, until another
statement runs or one that writes has finished.
-/

namespace RusqlEngine.Subquery

/-- The collation, the numbers a text can be read as, and `%.17g`. -/
structure Comparer where
  reader : ValueReader
  coll : Collation
  showDouble : ℚ → String
  key_ne_null : ∀ text, text ≠ executorNull → coll.key text ≠ executorNull
  showDouble_ne_null : ∀ q, showDouble q ≠ executorNull

namespace Comparer

variable (c : Comparer)

def compareClassed (a b : ValueClass) (x y : String) : Ordering :=
  if a = .number ∨ b = .number then c.reader.compareNumbers x y
  else if ¬ (a = .text ∧ b = .text) ∧ (c.reader.parseNumber x).isSome ∧
      (c.reader.parseNumber y).isSome then c.reader.compareNumbers x y
  else c.reader.compareText x y

/-- `normalize_numeric_key`. A text with a double has no NaN and no infinity. -/
def normalizeNumericKey (s : String) : String :=
  match parseInt64Text s with
  | some whole => toString whole
  | none =>
    match c.reader.parseNumber s with
    | none => c.coll.key s
    | some v =>
      if v.den = 1 ∧ |v| < 9200000000000000000 then toString v.num else c.showDouble v

def inKey (cls : ValueClass) (v : String) : String :=
  if v = executorNull then v
  else if cls = .text then c.coll.key v
  else c.normalizeNumericKey v

def inEqual (cls : ValueClass) (a b : String) : Bool :=
  a == b || (if cls = .text then c.coll.equal a b else c.compareClassed cls cls a b == .eq)

end Comparer

inductive CmpOp
  | eq
  | ne
  | gt
  | lt
  | gte
  | lte
deriving DecidableEq, Repr

/-- `holds`, for the order of the two values. -/
def CmpOp.holds : CmpOp → Ordering → Bool
  | .eq, o => o == .eq
  | .ne, o => o != .eq
  | .gt, o => o == .gt
  | .lt, o => o == .lt
  | .gte, o => o != .lt
  | .lte, o => o != .gt

inductive Quantifier
  | none
  | any
  | all
deriving DecidableEq, Repr

/-- A condition on a subquery, with the classes of its operands. -/
inductive Shape
  | exists (negated : Bool)
  | rowIn (negated : Bool) (classes : List ValueClass)
  | isIn (negated : Bool) (left right : ValueClass)
  | compare (op : CmpOp) (quantifier : Quantifier) (left right : ValueClass)
deriving DecidableEq, Repr

def tri (b : Bool) : Tri :=
  if b then .true else .false

def triNot : Tri → Tri
  | .true => .false
  | .false => .true
  | .unknown => .unknown

def membership (negated leftNull contains hasNull empty : Bool) : Tri :=
  if leftNull then (if empty then tri negated else .unknown)
  else if contains then tri !negated
  else if hasNull then .unknown
  else tri negated

/-- The rows of the cells of an answer, `width` to a row. -/
def takeRows (width : Nat) : Nat → List String → List (List String)
  | 0, _ => []
  | n + 1, cells =>
    if width ≤ cells.length then cells.take width :: takeRows width n (cells.drop width) else []

section

variable (c : Comparer)

/-- The comparison of a row with the row on the left, `same` in the source. -/
def sameRow : List (String × ValueClass) → List String → Tri → Tri
  | (mine, cls) :: rest, other :: others, same =>
    if same = .false then .false
    else if mine = executorNull ∨ other = executorNull then sameRow rest others .unknown
    else if c.compareClassed cls cls mine other ≠ .eq then sameRow rest others .false
    else sameRow rest others same
  | _, _, same => same

/-- The loop over the rows of the answer, `in` in the source. -/
def rowIn (left : List (String × ValueClass)) : List (List String) → Tri → Tri
  | [], found => found
  | r :: rows, found =>
    if found = .true then .true
    else
      match sameRow c left r .true with
      | .true => rowIn left rows .true
      | .unknown => rowIn left rows .unknown
      | .false => rowIn left rows found

/-- The loop over the values for `op ANY` and `op ALL`. -/
def quantified (any : Bool) (op : CmpOp) (left right : ValueClass) (val : String) :
    List String → Bool → Tri
  | [], opened => if opened then .unknown else tri !any
  | v :: vals, opened =>
    let t := if val ≠ executorNull ∧ v ≠ executorNull then
      tri (op.holds (c.compareClassed left right val v)) else .unknown
    if any ∧ t = .true then .true
    else if any = false ∧ t = .false then .false
    else quantified any op left right val vals (opened || t == .unknown)

/-- A comparison with a subquery, from its values. -/
def compareValues (op : CmpOp) (quantifier : Quantifier) (left right : ValueClass) (val : String)
    (vals : List String) : Except String Tri :=
  match quantifier with
  | .any => .ok (if vals = [] then .false else quantified c true op left right val vals false)
  | .all => .ok (if vals = [] then .true else quantified c false op left right val vals false)
  | .none =>
    if val = executorNull then .ok .unknown
    else
      match vals with
      | [] => .ok .unknown
      | [v] =>
        if v = executorNull then .ok .unknown
        else .ok (tri (op.holds (c.compareClassed left right val v)))
      | _ :: _ :: _ => .error "Subquery returns more than 1 row"

/-- `IN` by the keys of the values. -/
def inKeys (negated : Bool) (left : ValueClass) (val : String) (keys : List String) : Tri :=
  membership negated (val == executorNull) (keys.contains (c.inKey left val))
    (keys.contains executorNull) keys.isEmpty

/-- `IN` by the values themselves. -/
def inValues (negated : Bool) (left : ValueClass) (val : String) (vals : List String) : Tri :=
  membership negated (val == executorNull)
    (vals.any fun v => v != executorNull && c.inEqual left v val)
    (vals.contains executorNull) vals.isEmpty

end

def hasRows (output : List Char) : Bool :=
  decide ¬ ResultText.emptyMark <:+: output

def values (output : List Char) : List String :=
  (ResultText.extractValues output).map String.ofList

/-- `extract_cells_from_output`, row after row. -/
def cells (output : List Char) (width : Nat) : Except String (List String) :=
  match ResultText.extractCells output width with
  | some rows => .ok (rows.flatten.map String.ofList)
  | none => .error s!"Operand should contain {width} column(s)"

/-- What the comparisons keep of an answer. -/
def scalars : Shape → List Char → Except String (List String)
  | .rowIn _ classes, output => cells output classes.length
  | .exists _, output | .isIn _ _ _, output | .compare _ _ _ _, output => .ok (values output)

section

variable (c : Comparer)

/-- A condition from what was read of the answer of its subquery; `mine` are the values on the
left. -/
def fromScalars (shape : Shape) (mine : List String) (vals : List String) : Except String Tri :=
  match shape with
  | .exists _ => .ok .false
  | .rowIn negated classes =>
    let found := rowIn c (mine.zip classes) (takeRows classes.length vals.length vals) .false
    .ok (if negated then triNot found else found)
  | .isIn negated left _ => .ok (inValues c negated left (mine.headD "") vals)
  | .compare op quantifier left right =>
    compareValues c op quantifier left right (mine.headD "") vals

/-- A condition from the text of the answer: the first evaluation path. -/
def firstPath (shape : Shape) (mine : List String) (correlated : Bool) (output : List Char) :
    Except String Tri :=
  match shape with
  | .exists negated => .ok (tri (hasRows output != negated))
  | .isIn negated left _ =>
    if correlated then (scalars shape output).bind (fromScalars c shape mine)
    else .ok (inKeys c negated left (mine.headD "") ((values output).map (c.inKey left)))
  | .rowIn _ _ | .compare _ _ _ _ => (scalars shape output).bind (fromScalars c shape mine)

end

/-- A program around the conditions: by the number of the statement and the address of a subquery,
its condition, the values on its left, and the text it prints for a row of the outer query (or for
none). -/
structure Program (κ ρ : Type) where
  shape : Nat → κ → Shape
  correlated : Nat → κ → Bool
  left : Nat → κ → ρ → List String
  run : Nat → Nat → κ → Option ρ → Except String (List Char)

/-- `subquery_cache_`, `subquery_scalar_cache_`, `subquery_exists_cache_`, with the statement and
the writes they are for. -/
structure Caches (κ : Type) where
  inKept : κ → Option (List String)
  scalarKept : κ → Option (List String)
  existsKept : κ → Option Bool
  cacheStatement : Nat
  cacheWrites : Nat

/-- Caches that hold nothing. -/
def Caches.fresh {κ : Type} (statement writes : Nat) : Caches κ where
  inKept _ := none
  scalarKept _ := none
  existsKept _ := none
  cacheStatement := statement
  cacheWrites := writes

/-- `sync_subquery_caches`. -/
def Caches.sync {κ : Type} (caches : Caches κ) (statement writes : Nat) : Caches κ :=
  if statement = caches.cacheStatement ∧ writes = caches.cacheWrites then caches
  else .fresh statement writes

def isOpen (shape : Shape) (mine : List String) : Bool :=
  match shape with
  | .compare _ .none _ _ => mine.headD "" == executorNull
  | _ => false

section

variable {κ ρ : Type} [DecidableEq κ] (c : Comparer) (program : Program κ ρ)

/-- `run_subquery`. -/
def Program.output (statement writes : Nat) (k : κ) (row : ρ) : Except String (List Char) :=
  program.run statement writes k (if program.correlated statement k then some row else none)

/-- `EXISTS` and `NOT EXISTS`. -/
def evalExists (negated : Bool) (statement writes : Nat) (caches : Caches κ) (k : κ) (row : ρ) :
    Except String Tri × Caches κ :=
  match (if program.correlated statement k then none else caches.existsKept k) with
  | some has => (.ok (tri (has != negated)), caches)
  | none =>
    match program.output statement writes k row with
    | .error e => (.error e, caches)
    | .ok output => (.ok (tri (hasRows output != negated)),
        if program.correlated statement k then caches
        else { caches with
          existsKept := Function.update caches.existsKept k (some (hasRows output)) })

/-- `IN` and `NOT IN` of a subquery that has one answer. -/
def evalIn (negated : Bool) (left : ValueClass) (statement writes : Nat) (caches : Caches κ)
    (k : κ) (row : ρ) : Except String Tri × Caches κ :=
  let val := (program.left statement k row).headD ""
  match caches.inKept k with
  | some keys => (.ok (inKeys c negated left val keys), caches)
  | none =>
    match program.output statement writes k row with
    | .error e => (.error e, caches)
    | .ok output => (.ok (inKeys c negated left val ((values output).map (c.inKey left))),
        { caches with inKept :=
            Function.update caches.inKept k (some ((values output).map (c.inKey left))) })

/-- The conditions that read the values of the answer themselves. A correlated `IN` keeps nothing,
as usual. -/
def evalScalars (statement writes : Nat) (caches : Caches κ) (k : κ) (row : ρ) :
    Except String Tri × Caches κ :=
  let shape := program.shape statement k
  let mine := program.left statement k row
  if isOpen shape mine then (.ok .unknown, caches)
  else
    match (if program.correlated statement k then none else caches.scalarKept k) with
    | some vals => (fromScalars c shape mine vals, caches)
    | none =>
      match (program.output statement writes k row).bind (scalars shape) with
      | .error e => (.error e, caches)
      | .ok vals => (fromScalars c shape mine vals,
          if program.correlated statement k then caches
          else { caches with
            scalarKept := Function.update caches.scalarKept k (some vals) })

/-- `eval_single_with_subquery`, once the caches are good for the statement. -/
def evalKept (statement writes : Nat) (caches : Caches κ) (k : κ) (row : ρ) :
    Except String Tri × Caches κ :=
  match program.shape statement k with
  | .exists negated => evalExists program negated statement writes caches k row
  | .isIn negated left _ =>
    if program.correlated statement k then
      evalScalars c program statement writes caches k row
    else evalIn c program negated left statement writes caches k row
  | .rowIn _ _ | .compare _ _ _ _ => evalScalars c program statement writes caches k row

/-- `eval_single_with_subquery`. -/
def evalSingle (statement writes : Nat) (caches : Caches κ) (k : κ) (row : ρ) :
    Except String Tri × Caches κ :=
  evalKept c program statement writes (caches.sync statement writes) k row

/-- The same condition with nothing kept. -/
def evalFirst (statement writes : Nat) (k : κ) (row : ρ) : Except String Tri :=
  let shape := program.shape statement k
  let mine := program.left statement k row
  if isOpen shape mine then .ok .unknown
  else (program.output statement writes k row).bind
    (firstPath c shape mine (program.correlated statement k))

/-- The caches, and the numbers of the statement that runs and of the writes that ended. -/
structure State (κ : Type) where
  caches : Caches κ
  statement : Nat
  writes : Nat

/-- A condition is answered for a row, another statement goes on, or one that writes ends. -/
inductive Act (κ ρ : Type)
  | evaluate (k : κ) (row : ρ)
  | statement (n : Nat)
  | write

def step (s : State κ) : Act κ ρ → Option (State κ)
  | .evaluate k row =>
    some { s with caches := (evalSingle c program s.statement s.writes s.caches k row).2 }
  | .statement n => some { s with statement := n }
  | .write => some { s with writes := s.writes + 1 }

def State.start : State κ where
  caches := .fresh 0 0
  statement := 0
  writes := 0

end

end RusqlEngine.Subquery
