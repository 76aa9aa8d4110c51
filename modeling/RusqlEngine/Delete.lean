import RusqlEngine.CascadePlan
import RusqlEngine.IndexSearch
import RusqlEngine.Library.Positions
import RusqlEngine.SelectValues

/-!
# DELETE

`exec_delete_inner` takes its rows out by the position cache of a primary key, a range of the
primary-key tree, an index or a scan when nothing refers to the table, and else carries out the
foreign-key actions and reads the table again. A leaf of a condition that names no key has a given
value on a row. The statement runs alone and fires no trigger.
-/

namespace RusqlEngine

open Positions

inductive Tri
  | false
  | true
  | unknown
deriving DecidableEq, Repr

/-- The class of a column's type, and whether it is one of the whole-number types. -/
structure ColumnType where
  cls : ValueClass
  wholeNumber : Bool
deriving DecidableEq, Repr

/-- A comparison: `column = literal`, `column BETWEEN lo AND hi`, or anything else. -/
inductive CondLeaf
  | eq (column value : String) (quoted : Bool)
  | between (column lo hi : String) (loQuoted hiQuoted : Bool)
  | other (id : Nat) (subquery : Bool)
deriving DecidableEq, Repr

inductive CondExpr
  | leaf (condition : CondLeaf)
  | and (lhs rhs : CondExpr)
  | or (lhs rhs : CondExpr)
  | not (inner : CondExpr)
deriving DecidableEq, Repr

/-- `cond_has_any_subquery`. -/
def CondExpr.hasSubquery : CondExpr → Bool
  | .leaf (.other _ subquery) => subquery
  | .leaf _ => false
  | .and lhs rhs => lhs.hasSubquery || rhs.hasSubquery
  | .or lhs rhs => lhs.hasSubquery || rhs.hasSubquery
  | .not inner => inner.hasSubquery

/-- `eval_cond3_with_subquery`, from the values of the leaves. -/
def CondExpr.eval3 (leaf3 : CondLeaf → Tri) : CondExpr → Tri
  | .leaf condition => leaf3 condition
  | .and lhs rhs =>
    let l := lhs.eval3 leaf3
    if l = .false then .false
    else
      let r := rhs.eval3 leaf3
      if r = .false then .false else if l = .true ∧ r = .true then .true else .unknown
  | .or lhs rhs =>
    let l := lhs.eval3 leaf3
    if l = .true then .true
    else
      let r := rhs.eval3 leaf3
      if r = .true then .true else if l = .false ∧ r = .false then .false else .unknown
  | .not inner => match inner.eval3 leaf3 with
      | .true => .false
      | .false => .true
      | .unknown => .unknown

def canonicalInteger (text : String) : Bool :=
  match text.toList with
  | ['0'] => true
  | '-' :: c :: cs => c ≠ '0' && (c :: cs).all Char.isDigit
  | c :: cs => c ≠ '0' && (c :: cs).all Char.isDigit
  | [] => false

def TableSchema.identityColumns (schema : TableSchema) : List String :=
  if schema.primaryKeyColumns ≠ [] then schema.primaryKeyColumns
  else ((schema.columns.find? (·.primaryKey)).map (·.name)).toList

/-- The tables and what is around the statement: the position cache and the primary-key tree, the
open transactions, what an index yields for a condition, where and in which order the cascade finds
its targets, and the values of the leaves. -/
structure DeleteStmt where
  db : CascadeDb
  table : String
  schema : TableSchema
  typeOf : String → ColumnType
  parsesNumber : String → Bool
  rowPkPos : Option (String → Option Nat)
  rangeKeys : String → String → List String
  rangeKeys_nodup : ∀ lo hi, (rangeKeys lo hi).Nodup
  gathered : CondExpr → List Row → Option (List Cand)
  located : List Nat → List Nat
  activeTxnIds : Finset Nat
  curTxn : Nat
  cascadeId : Nat
  myId : Nat
  minRows : Nat
  leaf3 : CondLeaf → Row → Tri
  subquery3 : Nat → Tables → Row → Tri

namespace DeleteStmt

def rows (d : DeleteStmt) : List Row :=
  d.db.rowsOf d.table

/-- The value of a leaf on a row. -/
def leafValue (d : DeleteStmt) (tables : Tables) (row : Row) : CondLeaf → Tri
  | .other id true => d.subquery3 id tables row
  | condition => d.leaf3 condition row

/-- `matches_condition_with_subquery`, and `matches_condexpr` where there is no subquery. -/
def matchesCondition (d : DeleteStmt) (condition : Option CondExpr) (tables : Tables)
    (row : Row) : Bool :=
  match condition with
  | none => true
  | some expr => expr.eval3 (d.leafValue tables row) = .true

def conditionHasSubquery (condition : Option CondExpr) : Bool :=
  condition.any CondExpr.hasSubquery

def pkColumn (d : DeleteStmt) : String :=
  pkCol (some d.schema)

/-- `single_pk_col`. -/
def singlePk (d : DeleteStmt) : Bool :=
  (d.schema.columns.filter (·.primaryKey)).length = 1

/-- `column_def`, by the type of the column. -/
def columnDef (d : DeleteStmt) (name : String) : Option ColumnType :=
  if d.schema.columns.any (·.name = name) then some (d.typeOf name) else none

def extractPkEqValue (d : DeleteStmt) : Option CondExpr → Option String
  | some (.leaf (.eq column value quoted)) =>
    if column ≠ d.pkColumn then none
    else (d.columnDef column).bind fun type =>
      if quoted then (if type.cls ≠ .unknown then some value else none)
      else if type.cls = .number ∧ d.parsesNumber value = true then some value
      else none
  | _ => none

def extractPkBetweenValue (d : DeleteStmt) : Option CondExpr → Option (String × String)
  | some (.leaf (.between column lo hi loQuoted hiQuoted)) =>
    if column ≠ d.pkColumn then none
    else (d.columnDef column).bind fun type =>
      if type.cls = .text then (if loQuoted ∧ hiQuoted then some (lo, hi) else none)
      else if type.wholeNumber ∧ canonicalInteger lo ∧ canonicalInteger hi then some (lo, hi)
      else none
  | _ => none

/-- The position that the cache has for a key, once the row there is live and has it. -/
def cachedLive (d : DeleteStmt) (pk : String) : Option Nat :=
  (d.rowPkPos.bind fun cache => cache pk).bind fun pos =>
    (d.rows[pos]?).bind fun row =>
      if row.find d.pkColumn = some pk ∧ isVisible row then some pos else none

/-- The cache at the time of the index search: emptied when its entry for the condition's key is
stale. -/
def cacheAfterKey (d : DeleteStmt) (condition : Option CondExpr) : Option (String → Option Nat) :=
  match d.extractPkEqValue condition with
  | none => d.rowPkPos
  | some pk =>
    if (d.rowPkPos.bind fun cache => cache pk).isSome ∧ d.cachedLive pk = none then
      d.rowPkPos.map fun _ _ => none
    else d.rowPkPos

def indexSearch (d : DeleteStmt) (condition : Option CondExpr)
    (cache : Option (String → Option Nat)) (rows : List Row) : IndexSearch :=
  ⟨rows, d.pkColumn, cache, isVisible, d.matchesCondition condition d.db.tables⟩

def dmlIndexPositions (d : DeleteStmt) (condition : Option CondExpr)
    (cache : Option (String → Option Nat)) (rows : List Row) (selfTxnId : Nat) : DmlIndexHit :=
  match condition with
  | none => ⟨false, false, []⟩
  | some expr =>
    if rows.length < d.minRows then ⟨false, false, []⟩
    else if ∃ id ∈ d.activeTxnIds, id ≠ selfTxnId then ⟨false, false, []⟩
    else if d.singlePk = false then ⟨false, false, []⟩
    else match d.gathered expr rows with
      | none => ⟨false, false, []⟩
      | some cands => (d.indexSearch condition cache rows).checkCands cands [] []

def rebuildPkPositions (d : DeleteStmt) (rows : List Row) (cache : Option (String → Option Nat)) :
    Option (String → Option Nat) :=
  cache.map fun _ key => ((List.range rows.length).filter fun pos =>
    (rows[pos]?).any fun row => isVisible row && row.find d.pkColumn == some key).getLast?

/-- The search with one more try after a gap of the cache. -/
def healedPositions (d : DeleteStmt) (condition : Option CondExpr)
    (cache : Option (String → Option Nat)) (rows : List Row) (selfTxnId : Nat) : DmlIndexHit :=
  let hit := d.dmlIndexPositions condition cache rows selfTxnId
  if hit.cacheGap then
    d.dmlIndexPositions condition (d.rebuildPkPositions rows cache) rows selfTxnId
  else hit

/-- How rows leave the table: by position, or by a scan of the whole table. -/
inductive Removal
  | positions (ascending : List Nat)
  | scan
deriving DecidableEq

/-- The path that the statement takes when nothing refers to the table. -/
def fastRemoval (d : DeleteStmt) (condition : Option CondExpr) : Removal :=
  match (d.extractPkEqValue condition).bind d.cachedLive with
  | some pos => .positions [pos]
  | none => match d.extractPkBetweenValue condition with
      | some (lo, hi) =>
        let pks := d.rangeKeys lo hi
        let found := pks.filterMap d.cachedLive
        if pks ≠ [] ∧ found.length = pks.length then .positions (found.insertionSort (· ≤ ·))
        else .scan
      | none =>
        let hit := d.healedPositions condition (d.cacheAfterKey condition) d.rows 0
        if hit.usable then .positions hit.positions else .scan

/-- The rows that `collect_targets` finds, as positions. -/
def collectTargets (d : DeleteStmt) (condition : Option CondExpr) : List Nat :=
  let scanned := (List.range d.rows.length).filter fun pos =>
    (d.rows[pos]?).any fun row => isVisible row && d.matchesCondition condition d.db.tables row
  if conditionHasSubquery condition then scanned
  else
    let hit := d.dmlIndexPositions condition d.rowPkPos d.rows d.curTxn
    if hit.usable then hit.positions else scanned

/-- `plan_cascade_delete` for the rows that were found. -/
def plan (d : DeleteStmt) (condition : Option CondExpr) : Except String CascadeSim :=
  d.db.planCascadeDelete d.table (d.located (d.collectTargets condition))
    (d.matchesCondition condition d.db.tables) (!conditionHasSubquery condition)

/-- `globally_quiescent`. -/
def quiescent (d : DeleteStmt) : Bool :=
  d.activeTxnIds = ∅

def txnActive (d : DeleteStmt) : Bool :=
  d.curTxn ≠ 0

/-- The rows of a table that the plan rewrites and keeps: `finish`. -/
def rewrites (d : DeleteStmt) (sim : CascadeSim) (table : String) : List Nat :=
  (List.range (d.db.rowsOf table).length).filter fun pos =>
    !sim.gone table pos &&
      (sim.rewritten table pos).any fun image => image ≠ (d.db.rowsOf table).getD pos ∅

def endRow (id : Nat) (row : Row) : Row :=
  row.set "_xmax" (stdToString id)

/-- The versions in a table once `cascade_write` has carried out the plan, each with the position of
its row. -/
def cascaded (d : DeleteStmt) (sim : CascadeSim) (table : String) : List (Nat × Row) :=
  let written := ((d.db.rowsOf table).mapIdx fun pos row =>
      (pos, if pos ∈ d.rewrites sim table then endRow d.cascadeId row else row)) ++
    (d.rewrites sim table).map fun pos => (pos, (d.db.imageOf sim table pos).tag d.cascadeId)
  if !d.txnActive && d.quiescent then written.filter fun v => (table, v.1) ∉ sim.deleted
  else written.map fun v =>
    (v.1, if (table, v.1) ∈ sim.deleted then endRow d.cascadeId v.2 else v.2)

def cascadedTables (d : DeleteStmt) (sim : CascadeSim) : Tables := fun table =>
  (d.db.tables table).map fun _ => (d.cascaded sim table).map (·.2)

/-- The position cache of the table once the plan is carried out. -/
def cascadedCache (d : DeleteStmt) (sim : CascadeSim) : Option (String → Option Nat) :=
  let keyOf := fun row : Row => (row.find (keyCol d.schema)).getD ""
  let rewritten := d.rewrites sim d.table
  let deleted := (List.range d.rows.length).filter fun pos => (d.table, pos) ∈ sim.deleted
  let placed := if !d.singlePk then d.rowPkPos
    else d.rowPkPos.map fun cache key =>
      (((List.range rewritten.length).filter fun i =>
        keyOf (d.db.imageOf sim d.table (rewritten.getD i 0)) == key).getLast?.map
          (d.rows.length + ·)).or (cache key)
  if deleted = [] then placed
  else if !d.txnActive && d.quiescent then placed.map fun _ _ => none
  else if !d.singlePk then placed
  else placed.map fun cache key =>
    if deleted.any (fun pos => keyOf (d.rows.getD pos ∅) == key) then none else cache key

/-- The tables in the middle of a pass over the table. -/
def midPass (d : DeleteStmt) (sim : CascadeSim) (rows : List Row) : Tables := fun table =>
  if table = d.table then some rows else d.cascadedTables sim table

/-- What the pass that ends rows where they are answers. -/
def markAnswer (d : DeleteStmt) (condition : Option CondExpr) (sim : CascadeSim)
    (done : List Row) (row : Row) (rest : List Row) : Bool :=
  isVisible row && d.matchesCondition condition (d.midPass sim (done ++ row :: rest)) row

/-- What the pass of `std::remove_if` answers. -/
def compactAnswer (d : DeleteStmt) (condition : Option CondExpr) (sim : CascadeSim)
    (s : List Row × List Row) (row : Row) (rest : List Row) : Bool :=
  isVisible row && d.matchesCondition condition (d.midPass sim (s.1 ++ s.2 ++ row :: rest)) row

/-- What the pass does to the table after the cascade: which of its versions go, and what is
left. -/
structure Pass where
  removed : Nat → Bool
  rows : List Row

/-- The search by an index before the last pass. -/
def passHit (d : DeleteStmt) (condition : Option CondExpr) (sim : CascadeSim) (rows : List Row)
    (selfTxnId : Nat) : DmlIndexHit :=
  if conditionHasSubquery condition then ⟨false, false, []⟩
  else d.healedPositions condition (d.cascadedCache sim) rows selfTxnId

/-- The last pass when something refers to the table, the condition has a subquery, or a snapshot
may still need the rows. -/
def slowPass (d : DeleteStmt) (condition : Option CondExpr) (sim : CascadeSim) : Pass :=
  let rows := (d.cascaded sim d.table).map (·.2)
  let marked : Pass :=
    ⟨decided (d.markAnswer condition sim) (markStep (endRow d.myId)) [] rows,
      finish (d.markAnswer condition sim) (markStep (endRow d.myId)) [] rows⟩
  if d.txnActive then
    let hit := d.passHit condition sim rows d.curTxn
    if hit.usable then
      let goes := fun pos row => decide (pos ∈ hit.positions) && isVisible row &&
        d.matchesCondition condition d.db.tables row
      ⟨fun pos => (rows[pos]?).any (goes pos),
        rows.mapIdx fun pos row => if goes pos row then endRow d.myId row else row⟩
    else marked
  else if d.quiescent then
    let hit := d.passHit condition sim rows 0
    if hit.usable ∧ hit.positions.length ≤ 16 then
      ⟨fun pos => decide (pos ∈ hit.positions), hit.positions.reverse.foldl List.eraseIdx rows⟩
    else
      ⟨decided (d.compactAnswer condition sim) (compactStep ∅) ([], []) rows,
        (finish (d.compactAnswer condition sim) (compactStep ∅)
          ([], []) rows).1⟩
  else marked

/-- The one pass when nothing refers to the table. -/
def fastPass (d : DeleteStmt) (condition : Option CondExpr) : Pass :=
  match d.fastRemoval condition with
  | .positions ascending =>
    ⟨fun pos => decide (pos ∈ ascending),
      ascending.reverse.foldl swapRemove d.rows⟩
  | .scan =>
    let goes := fun row => isVisible row && d.matchesCondition condition d.db.tables row
    ⟨fun pos => (d.rows[pos]?).any goes, d.rows.filter fun row => !goes row⟩

/-- Nothing refers to the table, and nobody else needs its rows. -/
def fastPath (d : DeleteStmt) (condition : Option CondExpr) : Bool :=
  (d.db.edgesOf d.table).isEmpty && !conditionHasSubquery condition && !d.txnActive &&
    d.quiescent

/-- How a DELETE ends: what the foreign-key actions did, which versions of the table then went,
and the tables. -/
structure Outcome where
  sim : CascadeSim
  removed : Nat → Bool
  tables : Tables

def execDeleteInner (d : DeleteStmt) (condition : Option CondExpr) : Except String Outcome :=
  if (d.db.tables d.table).isNone then .error ("Table '" ++ d.table ++ "' not found")
  else if d.fastPath condition then
    let pass := d.fastPass condition
    .ok ⟨CascadeSim.start, pass.removed, fun table =>
      if table = d.table then some pass.rows else d.db.tables table⟩
  else do
    let sim ← d.plan condition
    let pass := d.slowPass condition sim
    return ⟨sim, pass.removed, d.midPass sim pass.rows⟩

/-- The rows that the SELECT of `rows_of_limit` picks, in the order asked for, as positions. -/
def pickedRows (d : DeleteStmt) (condition : Option CondExpr) (order : Row → Row → Ordering)
    (limit : Option Nat) : List Nat :=
  let found := (List.range d.rows.length).filter fun pos =>
    (d.rows[pos]?).any fun row => isVisible row && d.matchesCondition condition d.db.tables row
  let sorted := RowList.stableSort
    (fun a b => order (d.rows.getD a ∅) (d.rows.getD b ∅)) found
  match limit with
  | some n => sorted.take n
  | none => sorted

/-- The condition that names a row by its key. -/
def keyCondition (row : Row) : List String → Option CondExpr
  | [] => none
  | column :: columns => some (columns.foldl (fun one column =>
    .and one (.leaf (.eq column ((row.find column).getD executorNull) true)))
    (.leaf (.eq column ((row.find column).getD executorNull) true)))

/-- `rows_of_limit`: `none` when it picks no row. -/
def rowsOfLimit (d : DeleteStmt) (condition : Option CondExpr) (order : Row → Row → Ordering)
    (limit : Option Nat) : Except String (Option CondExpr) :=
  if d.schema.identityColumns = [] then
    .error "UPDATE / DELETE with ORDER BY or LIMIT needs a table with a PRIMARY KEY"
  else .ok (((d.pickedRows condition order limit).filterMap fun pos =>
      keyCondition (d.rows.getD pos ∅) d.schema.identityColumns).foldl
    (fun picked one => match picked with
      | none => some one
      | some picked => some (.or picked one)) none)

/-- A DELETE: its condition, and its ORDER BY and LIMIT if it has either. -/
structure Request where
  condition : Option CondExpr
  picking : Option ((Row → Row → Ordering) × Option Nat)

def nothingDone (d : DeleteStmt) : Outcome :=
  ⟨CascadeSim.start, fun _ => false, d.db.tables⟩

/-- The DELETE of the dispatcher. -/
def execDelete (d : DeleteStmt) (request : Request) : Except String Outcome :=
  match request.picking with
  | none => d.execDeleteInner request.condition
  | some (order, limit) => do
      match ← d.rowsOfLimit request.condition order limit with
      | none => return d.nothingDone
      | some condition => d.execDeleteInner (some condition)

/-- The rows that a DELETE asks to remove, by the positions where they are before it. -/
def asked (d : DeleteStmt) (request : Request) (pos : Nat) : Bool :=
  match request.picking with
  | none => (d.rows[pos]?).any fun row =>
    isVisible row && d.matchesCondition request.condition d.db.tables row
  | some (order, limit) => decide (pos ∈ d.pickedRows request.condition order limit)

end DeleteStmt

end RusqlEngine
