import RusqlEngine.SelectValues

/-!
# SELECT over one table

`execSelect` follows `exec_select` for one table, without window functions, scalar subqueries, WITH
ROLLUP and FOR UPDATE: the index paths, the Top-K path, and the scan with its clauses. The answer is
the list of the rows shown. Conditions, expressions, aggregate functions, the plan and what the
indexes hand out for it are parameters.
-/

namespace RusqlEngine

open RowList

/-- `SelectColumn`; an aggregate `A` is its function with its FILTER and source. -/
inductive SelectItem (A C X : Type)
  | all
  | column (name : String) (cls : ValueClass)
  | columnAlias (name shownAs : String) (cls : ValueClass)
  | agg (func : A) (col : String)
  | aggAlias (func : A) (col shownAs : String)
  | func (name : String) (args : List String)
  | caseWhen (branches : List (C × String)) (elseVal : Option String)
  | expr (e : X) (shownAs : Option String)

/-- A bound SELECT. An item of GROUP BY comes with the class of its values; `arguments` are the
expressions whose values every row gets under their texts (`expression_arguments`). -/
structure SelectQuery (A C X : Type) where
  columns : List (SelectItem A C X)
  distinct : Bool
  condition : Option C
  orderBy : List OrderBy
  groupBy : Option (List (String × ValueClass))
  having : Option C
  limit : Option Nat
  offset : Option Nat
  arguments : List (String × X)

/-- What `exec_select` calls: the evaluators, the aggregate functions, how values are shown, and the
sort of large groups. -/
structure SelectEval (A C X : Type) extends ValueReader where
  coll : Collation
  normalizeNumericKey : String → String
  getCol : Row → String → Option String
  getCol_of_find : ∀ row col v, row.find col = some v → getCol row col = some v
  evalCondexpr : Row → C → Bool
  evalArith : Row → X → String
  applyScalarFunc : String → List String → Row → String
  shownExprValue : X → String → String
  shownCell : String → String → String
  joinedCells : Row → String
  aggLabel : A → String → String
  computeAggregates : List Row → List (SelectItem A C X) → Row
  computeAggFromKey : String → List Row → String
  exprAggRefs : X → List String
  condAggRefs : C → List String
  textAggRefs : String → List String
  arithColumns : X → List String
  condColumns : C → List String
  hasAnyValue : X → Bool
  mentionsColumn : X → Bool
  classOfExpr : X → ValueClass
  lieInKeyOrder : List OrderBy → List Row → Bool
  parallelSort : List OrderBy → List Row → Option (List Row)
  parallelSort_spec : ∀ order rows sorted, parallelSort order rows = some sorted →
    sorted.Perm rows ∧ (Consistent (compareRows toValueReader.cmpKey getCol order) rows →
      InOrder (compareRows toValueReader.cmpKey getCol order) sorted)

/-- `AccessPath`, with the column of a secondary index. -/
inductive AccessPath
  | seqScan
  | pkPoint
  | pkBetween
  | pkRange
  | hashPoint
  | secondaryPoint (col : String)
  | secondaryRange (col : String)
  | secondaryBetween (col : String)
  | compositeIndex
  | secondaryLikePrefix (col : String)
  | indexIntersection
deriving DecidableEq, Repr

/-- The table, the reader's snapshot, and what the indexes say: `found` is what the access path
hands out, in its order, `indexHit` the answer of `dml_index_positions`; `none` where it is not
usable. -/
structure SelectTable where
  rows : List Row
  columnNames : List String
  primaryKey : List OrderBy
  partitioned : Bool
  readCtx : SnapshotCtx
  frozen : Bool
  activeTxnIds : Finset Nat
  access : AccessPath
  isCovering : Bool
  found : Option (List Row)
  indexHit : Option (List Nat)

variable {A C X : Type}

namespace SelectItem

def columnAggRefs (ev : SelectEval A C X) : SelectItem A C X → List String
  | .expr e _ => ev.exprAggRefs e
  | .caseWhen branches _ => branches.flatMap fun b => ev.condAggRefs b.1
  | .func _ args => args.flatMap ev.textAggRefs
  | _ => []

def columnHasAggregate (ev : SelectEval A C X) : SelectItem A C X → Bool
  | .agg _ _ => true
  | .aggAlias _ _ _ => true
  | item => !(item.columnAggRefs ev).isEmpty

def isAll : SelectItem A C X → Bool
  | .all => true
  | _ => false

/-- The lambda `only_col`: the item reads this column and nothing else. -/
def onlyCol (col : String) : SelectItem A C X → Bool
  | .column name _ => name == col
  | .columnAlias name _ _ => name == col
  | _ => false

/-- The columns an item reads. -/
def names (ev : SelectEval A C X) : SelectItem A C X → List String
  | .column name _ => [name]
  | .columnAlias name _ _ => [name]
  | .expr e _ => ev.arithColumns e
  | _ => []

/-- The alias `HAVING` may read. -/
def aliasName : SelectItem A C X → Option String
  | .expr _ shownAs => shownAs
  | .columnAlias _ shownAs _ => some shownAs
  | .aggAlias _ _ shownAs => some shownAs
  | _ => none

def isAggAlias : SelectItem A C X → Bool
  | .aggAlias _ _ _ => true
  | _ => false

/-- `distinct_classes`. -/
def distinctClass (ev : SelectEval A C X) : SelectItem A C X → ValueClass
  | .column _ cls => cls
  | .columnAlias _ _ cls => cls
  | .expr e _ => ev.classOfExpr e
  | _ => .unknown

/-- The value of a CASE: a result that names a column is the column's value. -/
def caseValue (ev : SelectEval A C X) (row : Row) (branches : List (C × String))
    (otherwise : String) : String :=
  match branches.find? fun b => ev.evalCondexpr row b.1 with
  | some b => (ev.getCol row b.2).getD b.2
  | none => otherwise

/-- The value of an item that `dedupe` compares rows by. -/
def distinctValue (ev : SelectEval A C X) (row : Row) : SelectItem A C X → String
  | .all => ev.joinedCells row
  | .column name _ => (ev.getCol row name).getD ""
  | .columnAlias name _ _ => (ev.getCol row name).getD ""
  | .agg f col => ((row.find (ev.aggLabel f col)).or (row.find col)).getD ""
  | .aggAlias _ col shownAs => ((row.find shownAs).or (row.find col)).getD ""
  | .func name args => ev.applyScalarFunc name args row
  | .caseWhen branches elseVal =>
    caseValue ev row branches (elseVal.elim "" fun v => (ev.getCol row v).getD v)
  | .expr e _ => ev.shownExprValue e (ev.evalArith row e)

/-- The value of an item in `format_rows`. -/
def shownValue (ev : SelectEval A C X) (row : Row) : SelectItem A C X → String
  | .all => ""
  | .column name _ => ev.shownCell name ((ev.getCol row name).getD "")
  | .columnAlias name _ _ => ev.shownCell name ((ev.getCol row name).getD "")
  | .agg f col =>
    ev.shownCell (ev.aggLabel f col) ((ev.getCol row (ev.aggLabel f col)).getD "")
  | .aggAlias _ _ shownAs => ev.shownCell shownAs ((ev.getCol row shownAs).getD "")
  | .func name args => ev.applyScalarFunc name args row
  | .caseWhen branches elseVal =>
    caseValue ev row branches (elseVal.elim executorNull fun v => (ev.getCol row v).getD v)
  | .expr e _ => ev.shownExprValue e (ev.evalArith row e)

def isConstantItem (ev : SelectEval A C X) : SelectItem A C X → Bool
  | .expr e shownAs =>
    !((SelectItem.expr e shownAs : SelectItem A C X).columnHasAggregate ev) &&
      !ev.mentionsColumn e
  | _ => false

def isAnyValueItem (ev : SelectEval A C X) : SelectItem A C X → Bool
  | .expr e _ => ev.hasAnyValue e
  | _ => false

end SelectItem

def bareName (name : String) : String :=
  String.ofList ((name.toList.reverse.takeWhile (· ≠ '.')).reverse)

/-- `row.try_emplace` of every cell of the other row. -/
def Row.emplaceAll (row other : Row) : Row :=
  row ∪ other

/-- `if (!row.count(ref)) row[ref] = value`. -/
def Row.setIfAbsent (row : Row) (ref value : String) : Row :=
  if (row.find ref).isSome then row else row.set ref value

namespace SelectQuery

variable (ev : SelectEval A C X) (q : SelectQuery A C X)

/-- `columns_have_aggregate`. -/
def hasAgg : Bool :=
  q.columns.any (·.columnHasAggregate ev)

/-- `select_agg_refs`. -/
def exprAggRefs : List String :=
  q.columns.flatMap (·.columnAggRefs ev)

/-- The aggregates `HAVING` reads. -/
def havingAggRefs : List String :=
  q.having.elim [] ev.condAggRefs

/-- `matches_condexpr`. -/
def holds (row : Row) : Bool :=
  q.condition.all (ev.evalCondexpr row)

def withArguments (row : Row) : Row :=
  q.arguments.foldl (fun r arg => r.set arg.1 (ev.evalArith r arg.2)) row

/-- `having_aliases`: the items that give their value under an alias `HAVING` reads. -/
def havingAliases : List (String × SelectItem A C X) :=
  q.columns.filterMap fun item =>
    match item.aliasName with
    | none => none
    | some shownAs =>
      if !item.isAggAlias && (q.having.elim [] ev.condColumns).contains shownAs then
        some (shownAs, item) else none

def havingAliasValue (item : SelectItem A C X) (row : Row) : String :=
  match item with
  | .expr e _ => ev.evalArith row e
  | .columnAlias name _ _ => (ev.getCol row name).getD executorNull
  | _ => executorNull

/-- A part of the key `dedupe` and GROUP BY look up; the parts are length-prefixed in one
text there. -/
def keyPart (cls : ValueClass) (value : String) : String :=
  if cls = .number then ev.normalizeNumericKey value else ev.coll.key value

/-- The key of a row in `dedupe`. -/
def distinctKey (row : Row) : List String :=
  q.columns.map fun item => keyPart ev (item.distinctClass ev) (item.distinctValue ev row)

def groupValues (items : List (String × ValueClass)) (row : Row) : List String :=
  items.map fun item => (ev.getCol row item.1).getD ""

/-- The key of the group a row belongs to. -/
def groupKey (items : List (String × ValueClass)) (row : Row) : List String :=
  items.map fun item => keyPart ev item.2 ((ev.getCol row item.1).getD "")

/-- `needs_group_row`: something reads a column that is not grouped by. -/
def needsGroupRow (items : List (String × ValueClass)) : Bool :=
  let grouped := items.map fun item => bareName item.1
  let itemAliases := q.columns.filterMap (·.aliasName)
  (q.columns.any fun item =>
    item.isAll || (item.names ev).any fun n => !grouped.contains (bareName n)) ||
  (q.having.elim [] ev.condColumns).any fun n =>
    !itemAliases.contains n && !grouped.contains (bareName n)

/-- The cells that aggregates of the rows give a row that has none under their names. -/
def addAggRefs (refs : List String) (rows : List Row) (row : Row) : Row :=
  refs.foldl (fun r ref => r.setIfAbsent ref (ev.computeAggFromKey ref rows)) row

/-- The loop over `having_aliases`: an alias that is also a cell of the row is kept apart
(`shadowed`). -/
def addAliases (aliases : List (String × SelectItem A C X)) (row : Row) :
    Row × List (String × String) :=
  aliases.foldl (fun (out, shadowed) (name, item) =>
    let value := havingAliasValue ev item out
    if (out.find name).isSome then (out, shadowed ++ [(name, value)])
    else (out.set name value, shadowed)) (row, [])

/-- `make_group_row`: the row of a group, and what `HAVING` reads instead of some cells. -/
def makeGroupRow (items : List (String × ValueClass)) (first : Row) (rows : List Row) :
    Row × List (String × String) :=
  let keyed := (items.zip (groupValues ev items first)).foldl
    (fun (out : Row) cell => out.set cell.1.1 cell.2) ∅
  let kept := if q.needsGroupRow ev items then Row.emplaceAll keyed first else keyed
  let aggregated := Row.emplaceAll (ev.computeAggregates rows q.columns) kept
  let referred := addAggRefs ev (q.exprAggRefs ev) rows aggregated
  if q.having.isSome then
    addAliases ev (q.havingAliases ev) (addAggRefs ev (q.havingAggRefs ev) rows referred)
  else (referred, [])

/-- `HAVING` on the row of a group. -/
def keepsGroup (made : Row × List (String × String)) : Bool :=
  q.having.all (ev.evalCondexpr (made.2.foldl (fun r cell => r.set cell.1 cell.2) made.1))

/-- `HAVING` on the one row of aggregates, which the function also adds to. -/
def aggregateRow (rows : List Row) : Row :=
  addAggRefs ev (q.havingAggRefs ev) rows (ev.computeAggregates rows q.columns)

def keepsAggregates (rows : List Row) : Bool :=
  let aliases := q.havingAliases ev
  let aggRow := q.aggregateRow ev rows
  if aliases.isEmpty then q.having.all (ev.evalCondexpr aggRow)
  else
    let referred := addAggRefs ev (q.exprAggRefs ev) rows aggRow
    let probe := rows.head?.elim referred (Row.emplaceAll referred)
    let values := aliases.map fun a => (a.1, havingAliasValue ev a.2 probe)
    q.having.all (ev.evalCondexpr (values.foldl (fun r cell => r.set cell.1 cell.2) probe))

/-- The cells of the answer of an aggregate query. -/
def aggregateCells (rows : List Row) : List String :=
  let aggRow := q.aggregateRow ev rows
  let anyValueItems := q.columns.any (·.isAnyValueItem ev)
  if !(q.exprAggRefs ev).isEmpty || q.columns.any (·.isConstantItem ev) || anyValueItems then
    let referred := addAggRefs ev (q.exprAggRefs ev) rows aggRow
    let row := if anyValueItems then rows.head?.elim referred (Row.emplaceAll referred)
      else referred
    let shown := q.columns.filter fun item =>
      item.columnHasAggregate ev || item.isConstantItem ev || item.isAnyValueItem ev
    shown.map (·.shownValue ev row)
  else
    q.columns.filterMap fun item =>
      match item with
      | .agg f col =>
        let label := ev.aggLabel f col
        some (ev.shownCell label ((aggRow.find label).getD ""))
      | .aggAlias _ _ shownAs => some (ev.shownCell shownAs ((aggRow.find shownAs).getD ""))
      | _ => none

/-- The cells of a row in `format_rows`; `*` shows the columns of the table. -/
def formatRow (columnNames : List String) (row : Row) : List String :=
  if q.columns.any (·.isAll) then
    columnNames.map fun name => ev.shownCell name ((ev.getCol row name).getD "")
  else q.columns.map (·.shownValue ev row)

end SelectQuery

namespace SelectTable

variable (ev : SelectEval A C X) (t : SelectTable) (q : SelectQuery A C X)

def useFastIndexPaths : Bool :=
  !t.frozen

/-- `others_active`: another transaction is open. -/
def othersActive : Bool :=
  decide (t.activeTxnIds.erase t.readCtx.selfTxnId ≠ ∅)

def rowOk (row : Row) : Bool :=
  isVisibleForRead row t.readCtx && q.holds ev row

/-- `add_bucket_covering`: a row of the indexed column alone for each live entry. -/
def coveringRows (col : String) (found : List Row) : List Row :=
  (found.filter isVisible).filterMap fun row =>
    match row.find col with
    | none => none
    | some v =>
      let one := Row.ofCells [(col, v)]
      if q.holds ev one then some one else none

/-- `covering_col`: a path through the index of one column, which is all that is selected. -/
def coveringCol : Option String :=
  if t.isCovering then
    match t.access with
    | .secondaryPoint col => if q.columns.all (·.onlyCol col) then some col else none
    | .secondaryRange col => if q.columns.all (·.onlyCol col) then some col else none
    | _ => none
  else none

/-- The rows of an index path that is usable. -/
def indexRows (found : List Row) : List Row :=
  match t.coveringCol q with
  | some col => coveringRows ev q col found
  | none => found.filter (t.rowOk ev q)

/-- The index paths. -/
def indexPath : Option (List Row) :=
  if t.useFastIndexPaths && !q.hasAgg ev && q.limit.isNone && q.offset.isNone &&
      q.orderBy.isEmpty && !q.distinct then
    match t.access, t.found with
    | .seqScan, _ => none
    | _, none => none
    | .pkPoint, some found =>
      let rows := found.filter (t.rowOk ev q)
      if !t.othersActive || (found.length == 1 && rows.length == 1) then some rows else none
    | _, some found => if t.othersActive then none else some (t.indexRows ev q found)
  else none

/-- The column whose order a path reads its rows in. -/
def rangeColumn : AccessPath → Option String
  | .secondaryRange col => some col
  | .secondaryBetween col => some col
  | .secondaryLikePrefix col => some col
  | _ => none

/-- The Top-K index path. -/
def topKPath : Option (List Row) :=
  if t.useFastIndexPaths && !t.othersActive && !q.hasAgg ev && !q.distinct && q.offset.isNone then
    match q.orderBy, q.limit, t.found with
    | [ord], some lim, some found =>
      if rangeColumn t.access = some ord.column then
        let rows := found.filter (t.rowOk ev q)
        some ((if ord.ascending then rows else rows.reverse).take lim)
      else none
    | _, _, _ => none
  else none

def orderRows (order : List OrderBy) (rows : List Row) : List Row :=
  stableSort (compareRows ev.compareCells ev.getCol order) rows

/-- `scan_key_order` and `in_primary_key_order`: rows are read in the order of the primary
key. -/
def inPrimaryKeyOrder (rows : List Row) : List Row :=
  if t.partitioned || t.primaryKey.isEmpty || ev.lieInKeyOrder t.primaryKey rows then rows
  else orderRows ev t.primaryKey rows

/-- `visible_ptrs`: the rows at the positions the candidate search found, or a scan. -/
def visibleRows : List Row :=
  let useHit := q.condition.isSome && t.useFastIndexPaths && (q.hasAgg ev || q.distinct ||
    q.limit.isSome || q.offset.isSome || !q.orderBy.isEmpty)
  match if useHit then t.indexHit else none with
  | some positions => t.inPrimaryKeyOrder ev (positions.filterMap fun pos => t.rows[pos]?)
  | none => (t.inPrimaryKeyOrder ev t.rows).filter fun row => isVisibleForRead row t.readCtx

/-- `rows_p` before the clauses: the rows where WHERE is true, sorted by ORDER BY. -/
def scannedRows : List Row :=
  let matched := (t.visibleRows ev q).filter (q.holds ev)
  let carried := matched.map (q.withArguments ev)
  if !q.orderBy.isEmpty && 1 < carried.length then orderRows ev q.orderBy carried else carried

/-- OFFSET and LIMIT. -/
def window {α : Type} (rows : List α) : List α :=
  let skipped := q.offset.elim rows fun n => rows.drop n
  q.limit.elim skipped fun n => skipped.take n

def dedupe (rows : List Row) : List Row :=
  firstOfEach (q.distinctKey ev) [] rows

/-- The sort of the groups. -/
def sortGroups (rows : List Row) : List Row :=
  (ev.parallelSort q.orderBy rows).getD
    (stableSort (compareRows ev.cmpKey ev.getCol q.orderBy) rows)

/-- The rows of the groups that `HAVING` keeps. -/
def groupRows (items : List (String × ValueClass)) (rows : List Row) : List Row :=
  let groups := groupBy (SelectQuery.groupKey ev items) rows
  let made := groups.map fun group => q.makeGroupRow ev items group.1 group.2
  (made.filter (q.keepsGroup ev)).map Prod.fst

/-- The grouped path. -/
def groupedPath (items : List (String × ValueClass)) (rows : List Row) : List (List String) :=
  let made := groupRows ev q items rows
  let kept := if q.distinct then dedupe ev q made else made
  let sorted := if q.orderBy.isEmpty then kept else sortGroups ev q kept
  (window q sorted).map (q.formatRow ev t.columnNames)

/-- The rows left for a statement without GROUP BY. -/
def plainRows (rows : List Row) : List Row :=
  let kept := if q.hasAgg ev then rows else rows.filter fun row =>
    q.having.all (ev.evalCondexpr row)
  let cut := window q kept
  if q.distinct then dedupe ev q cut else cut

def execSelect : List (List String) :=
  match t.indexPath ev q, t.topKPath ev q, q.groupBy with
  | some rows, _, _ => rows.map (q.formatRow ev t.columnNames)
  | none, some rows, _ => rows.map (q.formatRow ev t.columnNames)
  | none, none, some items => t.groupedPath ev q items (t.scannedRows ev q)
  | none, none, none =>
    let rows := plainRows ev q (t.scannedRows ev q)
    if q.hasAgg ev then (if q.keepsAggregates ev rows then [q.aggregateCells ev rows] else [])
    else rows.map (q.formatRow ev t.columnNames)

end SelectTable

end RusqlEngine
