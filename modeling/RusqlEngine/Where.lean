import RusqlEngine.NumericText
import RusqlEngine.Pushdown
import RusqlEngine.RowJson
import RusqlEngine.UnicodeCollation

/-!
# The comparisons of a WHERE

`eval_single3` compares both sides by their classes: as numbers if one of them is a number, by the
collation if both are texts, and otherwise by what the texts look like. Expressions that are no
column, LIKE, REGEXP, subqueries and the numbers that stand for dates, ENUM and SET values are
parameters.
-/

namespace RusqlEngine.Where

open Buffer (Byte Bytes)
open NumericText UnicodeCollation
open Pushdown (Operator)

/-- `EXECUTOR_NULL_VALUE`. -/
def nullValue : Bytes := [0x4E, 0x55, 0x4C, 0x4C]

/-- The text `__NULL__`. -/
def nullMark : Bytes := [0x5F, 0x5F, 0x4E, 0x55, 0x4C, 0x4C, 0x5F, 0x5F]

section

variable (table : Table)

def compareClassed (a b : ValueClass) (x y : Bytes) : Ordering :=
  if a = .number ∨ b = .number then compareNumbers x y
  else if ¬ (a = .text ∧ b = .text) ∧ (parseNumber x).isSome ∧ (parseNumber y).isSome then
    compareNumbers x y
  else compare table x y

def cmpVal (a b : Bytes) : Ordering :=
  match parseNumber a, parseNumber b with
  | some da, some db => Ord.compare da db
  | _, _ => compare table a b

end

def writtenClass (value : Bytes) (quoted : Bool) : ValueClass :=
  if quoted then .text else if (parseNumber value).isSome then .number else .unknown

inductive ColKind
  | plain | date | dateTime | time | enum | set
deriving DecidableEq, Repr

/-- `ArithExpr::Col`; `single` is a FLOAT column. -/
structure Column where
  name : Bytes
  cls : ValueClass
  kind : ColKind
  single : Bool
deriving DecidableEq

/-- A side of a comparison: a column or any other expression. -/
inductive Operand (ε : Type)
  | column (col : Column)
  | expr (e : ε)

inductive CondValue (ε : Type)
  | literal (value : Bytes) (quoted : Bool)
  | between (lo hi : Bytes) (loQuoted hiQuoted : Bool)
  | literalList (values : List (Bytes × Bool))
  | arith (e : Operand ε)
  | subquery

structure Condition (ε : Type) where
  left : Operand ε
  op : Operator
  value : CondValue ε
  leftClass : ValueClass
  rightClass : ValueClass

inductive CondExpr (ε : Type)
  | leaf (condition : Condition ε)
  | and (lhs rhs : CondExpr ε)
  | or (lhs rhs : CondExpr ε)
  | not (inner : CondExpr ε)

/-- What the comparisons are evaluated with. `keys` is the order in which a row's map is gone
through; a bad regular expression has no answer. -/
structure Evaluator (ε : Type) where
  table : Table
  keys : ByteRow → List Bytes
  evalArithExact : ByteRow → ε → Bytes
  evalArith : ByteRow → ε → Bytes
  classOf : ε → ValueClass
  kindOf : ε → ColKind
  singleResult : ε → Bool
  viewNumber : Operand ε → Bytes → Bytes
  widenSingle : Bytes → Bytes
  likeMatch : Bytes → Bytes → Bool
  regexSearch : Bytes → Bytes → Option Bool
  withSubquery : ByteRow → Condition ε → Tri

def dot : Byte := 0x2E

/-- What stands before and after the last dot. -/
def lastDot (name : Bytes) : Option (Bytes × Bytes) :=
  if dot ∈ name then
    some ((name.rdropWhile (· ≠ dot)).dropLast, name.rtakeWhile (· ≠ dot))
  else none

/-- The name of a trigger's `NEW.x` or `OLD.x` with its column in lower case. -/
def newOldKey (col : Bytes) : Option Bytes :=
  match col with
  | a :: b :: c :: d :: rest =>
    if d = dot ∧ rest ≠ [] ∧
        ([a, b, c] = [0x4E, 0x45, 0x57] ∨ [a, b, c] = [0x4F, 0x4C, 0x44]) then
      some (a :: b :: c :: d :: rest.map lowerCase)
    else none
  | _ => none

def letter (b : Byte) : Bool :=
  (0x41 ≤ b ∧ b ≤ 0x5A) ∨ (0x61 ≤ b ∧ b ≤ 0x7A)

/-- An unquoted literal that looks like a name (`is_ident_like`). -/
def identLike (value : Bytes) (quoted : Bool) : Bool :=
  !quoted && (match value with
    | [] => false
    | c :: _ => letter c || c == 0x5F) && !(parseNumber value).isSome

def tri (b : Bool) : Tri :=
  if b then .true else .false

/-- The answer of an operator that compares. -/
def orderHolds : Operator → Ordering → Option Bool
  | .eq, o => some (o == .eq)
  | .ne, o => some (o != .eq)
  | .gt, o => some (o == .gt)
  | .lt, o => some (o == .lt)
  | .gte, o => some (o != .lt)
  | .lte, o => some (o != .gt)
  | _, _ => none

def comparesNumbers : Operator → Bool
  | .like | .notLike | .regexp | .notRegexp => false
  | _ => true

namespace Evaluator

variable {ε : Type} (ev : Evaluator ε)

def getCol (row : ByteRow) (col : Bytes) : Option Bytes :=
  match row.lookup col with
  | some v => some v
  | none =>
    match (newOldKey col).bind fun key => row.lookup key with
    | some v => some v
    | none =>
      match lastDot col with
      | some (q, c) =>
        match (ev.keys row).find? fun k => (dot :: (q ++ dot :: c)).isSuffixOf k with
        | some k => row.lookup k
        | none => row.lookup c
      | none =>
        match (ev.keys row).filter fun k => (dot :: col).isSuffixOf k with
        | [k] => row.lookup k
        | _ => none

/-- `eval_arith` of a column: `true` and `false` are no columns. -/
def columnText (row : ByteRow) (name : Bytes) : Bytes :=
  let lower := name.map lowerCase
  if lower = [0x74, 0x72, 0x75, 0x65] ∨ lower = [0x66, 0x61, 0x6C, 0x73, 0x65] then lower
  else (ev.getCol row name).getD nullValue

/-- What a side holds; a comparison reads all the digits. -/
def operandText (row : ByteRow) (exact : Bool) : Operand ε → Bytes
  | .column col => ev.columnText row col.name
  | .expr e => if exact then ev.evalArithExact row e else ev.evalArith row e

/-- `class_of_expr`. -/
def operandClass : Operand ε → ValueClass
  | .column col => col.cls
  | .expr e => ev.classOf e

/-- `view_of` is not `Plain`. -/
def viewed : Operand ε → Bool
  | .column col => col.kind ≠ .plain
  | .expr e => ev.kindOf e ≠ .plain

def single : Operand ε → Bool
  | .column col => col.single
  | .expr e => ev.singleResult e

def leftClassOf (cond : Condition ε) : ValueClass :=
  if cond.leftClass = .unknown then ev.operandClass cond.left else cond.leftClass

/-- One side of a BETWEEN. -/
def betweenSide (cls : ValueClass) (val bound : Bytes) (quoted lower : Bool) : Tri :=
  if bound = nullValue then .unknown
  else
    let order := compareClassed ev.table cls (writtenClass bound quoted) val bound
    tri (if lower then order != .lt else order != .gt)

/-- A BETWEEN whose left side is not NULL. -/
def between (left : Operand ε) (op : Operator) (cls : ValueClass) (val lo hi : Bytes)
    (loQuoted hiQuoted : Bool) : Tri :=
  let viewedVal :=
    if ev.viewed left ∧ (loQuoted = false ∨ hiQuoted = false) then ev.viewNumber left val else val
  let betweenVal := if ev.single left then ev.widenSingle viewedVal else viewedVal
  let low := ev.betweenSide cls betweenVal lo loQuoted true
  let high := ev.betweenSide cls betweenVal hi hiQuoted false
  let inside :=
    if low = .false ∨ high = .false then Tri.false
    else if low = .true ∧ high = .true then .true else .unknown
  if op ≠ .notBetween then inside
  else match inside with
    | .true => .false
    | .false => .true
    | .unknown => .unknown

/-- Whether the left side is the value of a list, which is not NULL. -/
def listed (left : Operand ε) (cls : ValueClass) (val : Bytes) (item : Bytes × Bool) : Bool :=
  let numberVal :=
    if ev.viewed left then ev.viewNumber left val
    else if ev.single left then ev.widenSingle val else []
  let mine := if (ev.viewed left ∨ ev.single left) ∧ item.2 = false then numberVal else val
  compareClassed ev.table cls (writtenClass item.1 item.2) mine item.1 == .eq

/-- An IN or NOT IN whose left side is not NULL. -/
def inList (left : Operand ε) (op : Operator) (cls : ValueClass) (val : Bytes)
    (values : List (Bytes × Bool)) : Tri :=
  if op ≠ .isIn ∧ op ≠ .notIn then .false
  else if values.any fun item => item.1 != nullValue && ev.listed left cls val item then
    tri (op = .isIn)
  else if values.any fun item => item.1 == nullValue then .unknown
  else tri (op = .notIn)

/-- The right side of a comparison: its text, its class, and the number it is read as where the left
side is a number. -/
structure RightSide where
  text : Bytes
  cls : ValueClass
  viewed : Option Bytes
  single : Bool

/-- `effective_lit` and what goes with it. -/
def rightSide (row : ByteRow) (cond : Condition ε) : CondValue ε → Option RightSide
  | .arith e =>
    let text := ev.operandText row (comparesNumbers cond.op) e
    some ⟨text, if cond.rightClass = .unknown then ev.operandClass e else cond.rightClass,
      if ev.viewed e then some (ev.viewNumber e text) else none, ev.single e⟩
  | .literal value quoted =>
    let text := if identLike value quoted then (ev.getCol row value).getD value else value
    some ⟨text,
      if cond.rightClass = .unknown then writtenClass value quoted else cond.rightClass,
      none, false⟩
  | _ => none

/-- The comparison of two sides that are not NULL. -/
def compareSides (cond : Condition ε) (val : Bytes) (right : RightSide) : Tri :=
  let leftClass := ev.leftClassOf cond
  let viewsLeft := ev.viewed cond.left ∧ right.cls = .number
  let val := if viewsLeft then ev.viewNumber cond.left val else val
  let text := if ¬ viewsLeft ∧ leftClass = .number then right.viewed.getD right.text else right.text
  let val := if ev.single cond.left ∧ ev.viewed cond.left = false then ev.widenSingle val else val
  let text :=
    if right.single ∧ right.viewed.isNone then ev.widenSingle right.text else text
  match orderHolds cond.op (compareClassed ev.table leftClass right.cls val text) with
  | some holds => tri holds
  | none =>
    match cond.op with
    | .like => tri (ev.likeMatch val text)
    | .notLike => tri !(ev.likeMatch val text)
    | .regexp => tri ((ev.regexSearch val text).getD false)
    | .notRegexp => tri (!(ev.regexSearch val text).getD false)
    | _ => .false

/-- `eval_single3`, or `eval_single_with_subquery`. -/
def evalSingle3 (row : ByteRow) (cond : Condition ε) : Tri :=
  let val := ev.operandText row (comparesNumbers cond.op) cond.left
  match cond.value with
  | .subquery => ev.withSubquery row cond
  | .between lo hi loQuoted hiQuoted =>
    if val = nullValue then .unknown
    else ev.between cond.left cond.op (ev.leftClassOf cond) val lo hi loQuoted hiQuoted
  | .literalList values =>
    if val = nullValue then .unknown
    else ev.inList cond.left cond.op (ev.leftClassOf cond) val values
  | value =>
    match ev.rightSide row cond value with
    | none => .false
    | some right =>
      if cond.op = .isNull then tri (val = nullValue)
      else if cond.op = .isNotNull then tri (val ≠ nullValue)
      else if val = nullValue ∨ right.text = nullMark ∨ right.text = nullValue then .unknown
      else ev.compareSides cond val right

def evalCond3 (row : ByteRow) : CondExpr ε → Tri
  | .leaf condition => ev.evalSingle3 row condition
  | .and lhs rhs =>
    let l := evalCond3 row lhs
    if l = .false then .false
    else
      let r := evalCond3 row rhs
      if r = .false then .false
      else if l = .true ∧ r = .true then .true else .unknown
  | .or lhs rhs =>
    let l := evalCond3 row lhs
    if l = .true then .true
    else
      let r := evalCond3 row rhs
      if r = .true then .true
      else if l = .false ∧ r = .false then .false else .unknown
  | .not inner =>
    match evalCond3 row inner with
    | .true => .false
    | .false => .true
    | .unknown => .unknown

def evalCondexpr (row : ByteRow) (cond : CondExpr ε) : Bool :=
  ev.evalCond3 row cond == .true

end Evaluator

/-- `collect_and_leaves`. -/
def CondExpr.andLeaves {ε : Type} : CondExpr ε → List (Condition ε)
  | .leaf condition => [condition]
  | .and lhs rhs => lhs.andLeaves ++ rhs.andLeaves
  | .or _ _ => []
  | .not _ => []

section

variable {ε : Type} (ev : Evaluator ε)

theorem evalSingle3_of_andLeaves {row : ByteRow} : ∀ {cond : CondExpr ε},
    ev.evalCondexpr row cond → ∀ leaf ∈ cond.andLeaves, ev.evalSingle3 row leaf = .true
  | .leaf condition, h, leaf, hleaf => by
      obtain rfl := List.mem_singleton.mp hleaf
      exact eq_of_beq h
  | .and lhs rhs, h, leaf, hleaf => by
      have h : ev.evalCond3 row (.and lhs rhs) = .true := eq_of_beq h
      rw [Evaluator.evalCond3] at h
      have hboth : ev.evalCond3 row lhs = .true ∧ ev.evalCond3 row rhs = .true := by
        by_contra hboth
        revert h
        dsimp only
        split_ifs <;> simp
      rcases List.mem_append.mp hleaf with hleaf | hleaf
      · exact evalSingle3_of_andLeaves (beq_iff_eq.mpr hboth.1) leaf hleaf
      · exact evalSingle3_of_andLeaves (beq_iff_eq.mpr hboth.2) leaf hleaf
  | .or _ _, _, _, hleaf | .not _, _, _, hleaf => nomatch hleaf

end

end RusqlEngine.Where
