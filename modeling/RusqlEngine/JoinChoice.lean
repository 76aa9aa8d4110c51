import RusqlEngine.AccessPaths
import RusqlEngine.HashedJoin

/-!
# The choice of a join algorithm

The planner names an algorithm by the equality of an ON and by the sizes and indexes of the two
tables; the join step follows it, or hashes the rows and evaluates the whole ON on the pairs that
the buckets let through. Costs in floating-point numbers are given. This is the first join of a
statement, INNER, without USING.
-/

namespace RusqlEngine.Where

open AccessPaths UnicodeCollation NumericText
open Buffer (Bytes)

namespace JoinChoice

/-! ### The planner -/

inductive JoinAlgo
  | nestedLoop
  | sortMerge (probeCol buildCol : Bytes)
  | hash (probeCol buildCol : Bytes)
  | indexNL (probeCol rightPkCol : Bytes)
  | reverseIndexNL (rightExtractCol leftIndexKey : Bytes) (leftIsHash : Bool) (leftCol : Bytes)
deriving DecidableEq

/-- What the planner knows of the two tables. The costs of a probe and of a sort are those of the
algorithm they are compared for. -/
structure Planner where
  leftSize : ℕ
  rightSize : ℕ
  leftTable : Bytes
  rightTable : Bytes
  pkCol : Bytes → Option Bytes
  findSecondaryIndex : Bytes → Bytes → Option Bytes
  findHashIndex : Bytes → Bytes → Option Bytes
  forwardCost : ℕ
  reverseCost : Bytes → ℕ
  sortMergeCost : ℕ

def toLower (s : Bytes) : Bytes :=
  s.map lowerCase

def tablePrefix (s : Bytes) : Bytes :=
  if dot ∈ s then s.takeWhile (· ≠ dot) else []

def hashFactor : ℕ := 3

namespace Planner

variable {ε : Type} (planner : Planner)

/-- The column of the left table and that of the right one, of an equality that is not of texts. -/
def shapeOf : CondExpr ε → Option (Bytes × Bytes)
  | .leaf cond =>
    match cond.left, cond.value with
    | .column column, .literal value _ =>
      if cond.op = .eq ∧ cond.leftClass ≠ .text ∧ cond.rightClass ≠ .text then
        let rightBare := toLower (bareCol planner.rightTable)
        if toLower (tablePrefix value) = rightBare then
          some (bareCol column.name, bareCol value)
        else if toLower (tablePrefix column.name) = rightBare then
          some (bareCol value, bareCol column.name)
        else none
      else none
    | _, _ => none
  | _ => none

/-- The index of the left table that a right row may be looked up in, and whether it is a hash. -/
def leftIndex (probeCol : Bytes) : Option (Bytes × Bool) :=
  if planner.leftTable = [] then none
  else if planner.pkCol planner.leftTable = some probeCol then some (planner.leftTable, false)
  else
    ((planner.findSecondaryIndex planner.leftTable probeCol).map fun index => (index, false)).or
      ((planner.findHashIndex planner.leftTable probeCol).map fun index => (index, true))

def forwardCostOf (buildCol : Bytes) : Option ℕ :=
  if planner.pkCol planner.rightTable = some buildCol then some planner.forwardCost else none

def chooseJoinAlgo (on : CondExpr ε) : JoinAlgo :=
  let nlCost := planner.leftSize * planner.rightSize
  let hashCost := (planner.leftSize + planner.rightSize) * hashFactor
  match planner.shapeOf on with
  | none => .nestedLoop
  | some (probeCol, buildCol) =>
    let forward := planner.forwardCostOf buildCol
    let reverse := (planner.leftIndex probeCol).map fun index =>
      (planner.reverseCost index.1, index)
    if nlCost ≤ hashCost ∧ forward.all (nlCost ≤ ·) ∧ reverse.all (nlCost ≤ ·.1) then
      .nestedLoop
    else
      match reverse.filter fun r => forward.all (r.1 ≤ ·) && decide (r.1 ≤ hashCost) with
      | some (_, index, isHash) => .reverseIndexNL buildCol index isHash probeCol
      | none =>
        if forward.any (· ≤ hashCost) then .indexNL probeCol buildCol
        else if planner.sortMergeCost ≤ hashCost then .sortMerge probeCol buildCol
        else .hash probeCol buildCol

end Planner

/-! ### The step -/

section

variable (table : Table) (tree : KeyTree (List ByteRow))

def sameValue (a b : Bytes) : Bool :=
  match parseNumber a, parseNumber b with
  | some _, some _ => compareNumbers a b = .eq
  | _, _ => equal table a b

def equalEntries (key : Bytes) : List (List ByteRow) :=
  let cmp := KeyOrder.cmpKeys table tree.kinds
  match NumericKey.treeBound tree.kinds key true, NumericKey.treeBound tree.kinds key false with
  | some lo, some hi =>
    ((tree.root.rangeKeys cmp lo hi).filter fun k => sameValue table key k).filterMap
      (tree.root.search cmp)
  | _, _ => (tree.root.search cmp key).toList

end

structure OnEquality where
  leftRef : Bytes
  rightCol : Bytes
  leftClass : ValueClass
  rightClass : ValueClass
deriving DecidableEq

/-- What the join step reads: the row versions of the two tables, which the statement sees, and the
parts of the WHERE that are evaluated on one table's rows. -/
structure Step (ε : Type) where
  ev : Evaluator ε
  ord : Join.RowOrder
  cpus : ℕ
  joinQualifier : Bytes
  bare : Bytes
  leftRows : List ByteRow
  rightRows : List ByteRow
  isVisible : ByteRow → Bool
  pushedLeft : ByteRow → Bool
  pushedRight : ByteRow → Bool
  on : CondExpr ε
  keep : ByteRow → Bool
  rightSchemaCols : List Bytes
  inTransaction : Bool
  scopeOk : Bool
  rightIndex : Option (KeyTree (List ByteRow))
  leftIndexes : Bytes → Option (KeyTree (List ByteRow))
  leftHashIndexes : Bytes → Option (Bytes → List ByteRow)

namespace Step

variable {ε : Type} (step : Step ε)

def left : List ByteRow :=
  step.leftRows.filter fun row => step.isVisible row && step.pushedLeft row

def right : List ByteRow :=
  step.rightRows.filter fun row => step.isVisible row && step.pushedRight row

def merge (l r : ByteRow) : ByteRow :=
  Join.mergeRight step.ord l r step.joinQualifier

def onMatch (merged : ByteRow) : Bool :=
  step.ev.evalCondexpr merged step.on

/-- The lambda `as_right`. -/
def asRight (ref : Bytes) : Option Bytes :=
  match lastDot ref with
  | some (q, c) =>
    if (q = step.joinQualifier ∨ q = step.bare) ∧ c ∈ step.rightSchemaCols then some c else none
  | none => none

/-- `equality_part_of_on`, of one part. -/
def equalityOf (cond : Condition ε) : Option OnEquality :=
  match cond.left, cond.value with
  | .column l, .literal value false =>
    if cond.op = .eq then
      match step.asRight value, step.asRight l.name with
      | some c, none => some ⟨l.name, c, cond.leftClass, cond.rightClass⟩
      | none, some c => some ⟨value, c, cond.rightClass, cond.leftClass⟩
      | _, _ => none
    else none
  | _, _ => none

def equalityPartOfOn : Option OnEquality :=
  step.on.andLeaves.findSome? step.equalityOf

def textVsNumber (eq : OnEquality) : Bool :=
  (eq.leftClass = .text && eq.rightClass = .number) ||
    (eq.leftClass = .number && eq.rightClass = .text)

/-- The rows of `hashed_join_verified`, where the planner has no algorithm. -/
def hashed (algo : Option JoinAlgo) : Option (List ByteRow) :=
  if algo.getD .nestedLoop = .nestedLoop ∧ step.scopeOk then
    step.equalityPartOfOn.bind fun eq =>
      if textVsNumber eq then none
      else
        Join.hashedJoinVerified step.ev.table step.ord step.left step.right step.joinQualifier
          .inner (fun l => step.ev.getCol l eq.leftRef) (fun r => r.lookup eq.rightCol)
          step.rightSchemaCols step.onMatch none
          (eq.leftClass = .text && eq.rightClass = .text)
  else none

/-- What `key` is looked up by; NULL is not. -/
def probed (find : Bytes → List ByteRow) (key : Option Bytes) : List ByteRow :=
  match key with
  | some key => if key = nullValue then [] else (find key).filter step.isVisible
  | none => []

def hashJoin (probeCol buildCol : Bytes) : List ByteRow :=
  Join.hashJoin step.ev.table step.ord step.cpus step.left step.right .inner step.joinQualifier
    probeCol buildCol step.rightSchemaCols none

/-- Each left row with what the index of the right table has for it. -/
def indexLoop (find : Bytes → List ByteRow) (probeCol : Bytes) : List ByteRow :=
  step.left.flatMap fun l =>
    (step.probed find (step.ev.getCol l probeCol)).map fun r => step.merge l r

/-- Each right row with what the index of the left table has for it. -/
def reverseLoop (find : Bytes → List ByteRow) (rightExtractCol : Bytes) : List ByteRow :=
  step.right.flatMap fun r =>
    (step.probed find (step.ev.getCol r rightExtractCol)).map fun l => step.merge l r

/-- How the index of an algorithm is read, if it is there and no transaction is active. -/
def indexFind : JoinAlgo → Option (Bytes → List ByteRow)
  | .indexNL _ _ =>
    if step.inTransaction then none
    else step.rightIndex.map fun tree key => (equalEntries step.ev.table tree key).flatten
  | .reverseIndexNL _ index isHash _ =>
    if step.inTransaction then none
    else if isHash then
      (step.leftHashIndexes index).map fun buckets key =>
        buckets (NumericKey.normalizeNumericKey step.ev.table key)
    else
      (step.leftIndexes index).map fun tree key => (equalEntries step.ev.table tree key).flatten
  | _ => none

/-- The rows of the algorithms that do not evaluate the ON. -/
def planned : JoinAlgo → Option (List ByteRow)
  | .nestedLoop => none
  | .sortMerge probeCol buildCol =>
    some (Join.sortMergeJoin step.ev.table step.ord step.left step.right .inner
      step.joinQualifier probeCol buildCol step.rightSchemaCols none)
  | .hash probeCol buildCol => some (step.hashJoin probeCol buildCol)
  | .indexNL probeCol rightPkCol =>
    match step.indexFind (.indexNL probeCol rightPkCol) with
    | some find => some (step.indexLoop find probeCol)
    | none => some (step.hashJoin probeCol rightPkCol)
  | .reverseIndexNL rightExtractCol index isHash leftCol =>
    match step.indexFind (.reverseIndexNL rightExtractCol index isHash leftCol) with
    | some find => some (step.reverseLoop find rightExtractCol)
    | none => some (step.hashJoin leftCol rightExtractCol)

/-- The rows of the join step after the WHERE; the nested loop makes only those that it keeps. A
joined table with an alias has no algorithm. -/
def answer (algo : Option JoinAlgo) : List ByteRow :=
  match (step.hashed algo).or (algo.bind step.planned) with
  | some rows => rows.filter step.keep
  | none =>
    Join.nestedLoopJoin step.ord step.left step.right .inner step.joinQualifier []
      step.rightSchemaCols step.onMatch none (some step.keep)

/-- The nested loop over all the rows that the statement sees. -/
def nestedLoop : List ByteRow :=
  Join.nestedLoopJoin step.ord (step.leftRows.filter step.isVisible)
    (step.rightRows.filter step.isVisible) .inner step.joinQualifier [] step.rightSchemaCols
    step.onMatch none (some step.keep)

end Step

end JoinChoice

end RusqlEngine.Where
