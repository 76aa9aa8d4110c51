import RusqlEngine.Delete
import RusqlEngine.FailedUpdate
import RusqlEngine.Insert
import RusqlEngine.Library.Parts

/-!
# MERGE and the multi-table UPDATE and DELETE

Each of the three reads first and then carries out its changes as statements of the one-table paths:
a MERGE its update, deletes and inserts, the others one statement for each table. What the joins
yield, the values, the triggers, and the locks, indexes and checks of each statement are parameters.
-/

namespace RusqlEngine

/-- `PerRowValues`: the values that an UPDATE sets, by the key of the row. -/
abbrev PerRowValues := String → Option Row

inductive PartError
  | text (message : String)
  | key (error : KeyError)
deriving DecidableEq

abbrev PartAnswer := Tables × Except PartError Unit

/-- A one-table statement of a larger one. -/
inductive Part
  | update (table : String) (columns : List String) (values : PerRowValues)
  | delete (table : String) (condition : CondExpr)
  | insert (table : String) (written : List Row)
  | noTable (table : String)

/-- What the one-table statements find around them on given tables. -/
structure OneTable where
  update : (tables : Tables) → (table : String) → (columns : List String) →
    (values : PerRowValues) → { u : FkUpdate // u.db.tables = tables ∧ u.table = table ∧
      u.changedCols = columns ∧ u.search.whereTrue = fun row => (values (u.stmt.key row)).isSome }
  delete : (tables : Tables) → (table : String) →
    { d : DeleteStmt // d.db.tables = tables ∧ d.table = table }
  insert : Tables → String → InsertEnv
  /-- What `row_to_json` throws at a row of an INSERT whose text is not UTF-8. -/
  unwritable : Tables → Part → Option PartError
  /-- The BEFORE triggers: the tables as they leave them, and what they make of NEW. -/
  fireBefore : Tables → Part → Tables × Except PartError (List Row)
  /-- The AFTER triggers, for the rows that the statement found. -/
  fireAfter : Tables → Part → Tables → PartAnswer
  /-- The leaf `column IN (values)`. -/
  inLeaf : String → List String → Nat

def tableNotFound (table : String) : PartError :=
  .text ("Table '" ++ table ++ "' not found")

namespace OneTable

/-- A one-table statement without its triggers. The rows of an INSERT are logged one by one before
the first is put into the table. -/
def runInner (one : OneTable) (tables : Tables) : Part → PartAnswer
  | .update table columns values =>
    let out := (one.update tables table columns values).1.execUpdateInner
    (out.tables, out.result.mapError .text)
  | .delete table condition =>
    match (one.delete tables table).1.execDelete ⟨some condition, none⟩ with
    | .ok out => (out.tables, .ok ())
    | .error e => (tables, .error (.text e))
  | .insert table written =>
    match tables table with
    | none => (tables, .error (tableNotFound table))
    | some rows =>
      match (one.insert tables table).execInsert rows .abort written with
      | .error e => (tables, .error (.key e))
      | .ok rows =>
        match one.unwritable tables (.insert table written) with
        | some e => (tables, .error e)
        | none => (FkUpdate.putRows tables table rows, .ok ())
  | .noTable table => (tables, .error (tableNotFound table))

/-- The BEFORE triggers, and the statement with NEW as they leave it. A table that is not there has
none. -/
def before (one : OneTable) (tables : Tables) : Part → Tables × Except PartError Part
  | .noTable table => (tables, .ok (.noTable table))
  | .insert table written =>
    let out := one.fireBefore tables (.insert table written)
    (out.1, out.2.map fun new => .insert table new)
  | part =>
    let out := one.fireBefore tables part
    (out.1, out.2.map fun _ => part)

end OneTable

/-- A one-table statement on the tables, with its triggers. -/
def runPart (one : OneTable) (tables : Tables) (part : Part) : PartAnswer :=
  match one.before tables part with
  | (left, .error e) => (left, .error e)
  | (left, .ok fired) =>
    match one.runInner left fired with
    | (left, .error e) => (left, .error e)
    | (left, .ok ()) => one.fireAfter tables part left

/-- A MERGE: its clauses by what they say of a target row and a source row; `keyed` is the equality
of the ON that a hash answers, target column first. -/
structure MergeStmt where
  target : String
  source : String
  schema : TableSchema
  keyed : Option (String × String)
  normalizeKey : String → String
  on : Row → Row → Bool
  matchedUpdate : Option (List (String × (Row → Row → String)))
  matchedUpdateCond : Row → Row → Bool
  matchedDelete : Bool
  matchedDeleteCond : Row → Row → Bool
  updateFirst : Bool
  notMatchedColumns : List String
  notMatchedValues : List String

namespace MergeStmt

def rowKey (m : MergeStmt) (row : Row) : String :=
  matchKey (pkCols m.schema) row

/-- The target rows that a source row is held against. -/
def candidates (m : MergeStmt) (targets : List Row) (src : Row) : List Row :=
  match m.keyed with
  | none => targets
  | some (targetCol, sourceCol) =>
    if targets.any fun row => (row.find targetCol).isNone then targets
    else match src.find sourceCol with
      | none => targets
      | some value => targets.filter fun row =>
        value ≠ executorNull && cell row targetCol ≠ executorNull &&
          m.normalizeKey (cell row targetCol) == m.normalizeKey value

def trimQuotes (text : String) : String :=
  match text.toList with
  | '\'' :: rest => if rest.getLast? = some '\'' then String.ofList rest.dropLast else text
  | _ => text

/-- A value of WHEN NOT MATCHED, read from the source row where it names a column of it. -/
def insertedValue (src : Row) (raw : String) : String :=
  if trimQuotes raw ≠ raw then trimQuotes raw
  else match src.find raw with
    | some value => value
    | none =>
      if raw.toList.contains '.' then
        (src.find (String.ofList (raw.toList.dropWhile (· ≠ '.')).tail)).getD raw
      else raw

/-- What the rows of the source ask for. -/
structure Changes where
  updates : List (String × List (String × String)) := []
  deletes : List String := []
  inserts : List (List String) := []

/-- One row of the source: the first target row that meets it is updated or deleted; without one it
is inserted. -/
def followSource (m : MergeStmt) (targets : List Row) (changes : Changes) (src : Row) : Changes :=
  match (m.candidates targets src).find? fun tgt => m.on tgt src with
  | some tgt =>
    let deleteOk := m.matchedDelete && m.matchedDeleteCond tgt src
    let updateOk := m.matchedUpdate.isSome && m.matchedUpdateCond tgt src
    let doUpdate := if m.updateFirst then updateOk else updateOk && !deleteOk
    let doDelete := if m.updateFirst then deleteOk && !updateOk else deleteOk
    if doDelete then { changes with deletes := changes.deletes ++ [m.rowKey tgt] }
    else if doUpdate then
      let resolved := (m.matchedUpdate.getD []).map fun a => (a.1, a.2 tgt src)
      { changes with updates := changes.updates ++ [(m.rowKey tgt, resolved)] }
    else changes
  | none =>
    if m.notMatchedValues = [] then changes
    else
      let values := (List.range m.notMatchedColumns.length).map fun i =>
        insertedValue src (m.notMatchedValues.getD i "")
      { changes with inserts := changes.inserts ++ [values] }

def changes (m : MergeStmt) (tables : Tables) : Changes :=
  (liveVersions ((tables m.source).getD [])).foldl
    (m.followSource (liveVersions ((tables m.target).getD []))) {}

/-- The columns that the updates set, each once. -/
def updatedColumns (updates : List (String × List (String × String))) : List String :=
  (updates.flatMap fun u => u.2.map (·.1)).foldl (fun cols c =>
    if c ∈ cols then cols else cols ++ [c]) []

/-- The values by the key of the row: a row that several source rows update takes the last
ones. -/
def gathered (updates : List (String × List (String × String))) : PerRowValues :=
  updates.foldl (fun values u => Function.update values u.1
    (some (u.2.foldl (fun row a => row.set a.1 a.2) ((values u.1).getD ∅)))) fun _ => none

/-- A column that no source row sets for a row stays as it is. -/
def perRow (m : MergeStmt) (targets : List Row)
    (updates : List (String × List (String × String))) : PerRowValues := fun key =>
  (gathered updates key).map fun values =>
    (updatedColumns updates).foldl (fun values col =>
      if (values.find col).isSome then values
      else match targets.find? fun row => m.rowKey row == key with
        | some row => values.set col ((row.find col).getD executorNull)
        | none => values) values

/-- The lambda `key_values`: the parts of a key between its NUL bytes. -/
def keyValues : Nat → List Char → List String
  | 0, _ => []
  | n + 1, key => String.ofList (key.takeWhile (· ≠ '\x00')) ::
      keyValues n (key.dropWhile (· ≠ '\x00')).tail

/-- `a AND b` over a list, and `a OR b`. -/
def joined (glue : CondExpr → CondExpr → CondExpr) : List CondExpr → Option CondExpr
  | [] => none
  | c :: cs => some (cs.foldl glue c)

/-- The condition that names rows by their keys. -/
def keysCondition (cols : List String) (keys : List (List String)) : Option CondExpr :=
  joined .or (keys.filterMap fun key =>
    joined .and ((cols.zip key).map fun e => .leaf (.eq e.1 e.2 true)))

def insertedRows (m : MergeStmt) (inserts : List (List String)) : List Row :=
  inserts.map fun values => Row.ofCells (m.notMatchedColumns.zip values)

/-- The statements that carry out the changes: the update, the deletes, the inserts. -/
def parts (m : MergeStmt) (tables : Tables) : List Part :=
  let c := m.changes tables
  let targets := liveVersions ((tables m.target).getD [])
  let cols := pkCols m.schema
  (if c.updates = [] then []
    else [.update m.target (updatedColumns c.updates) (m.perRow targets c.updates)]) ++
  ((keysCondition cols (c.deletes.map fun key => keyValues cols.length key.toList)).map
    (Part.delete m.target)).toList ++
  (if c.inserts = [] then [] else [.insert m.target (m.insertedRows c.inserts)])

/-- What is checked before the first change: the rows to insert, and the foreign keys that refer to
the rows to delete. -/
def refusedFirst (m : MergeStmt) (one : OneTable) (tables : Tables) : Option PartError :=
  let c := m.changes tables
  let rows := (tables m.target).getD []
  let inserts := if c.inserts = [] then none
    else match (one.insert tables m.target).prepareRows rows .abort true 1
        (m.insertedRows c.inserts) {} with
      | .error e => some (.key e)
      | .ok _ => none
  match inserts with
  | some e => some e
  | none =>
    let doomed := (List.range rows.length).filter fun pos =>
      (rows[pos]?).any fun row => isVisible row && decide (m.rowKey row ∈ c.deletes)
    if doomed = [] then none
    else
      let d := (one.delete tables m.target).1
      match d.db.planCascadeDelete m.target (d.located doomed) (fun _ => true) false with
      | .error e => some (.text e)
      | .ok _ => none

end MergeStmt

def execMerge (one : OneTable) (tables : Tables) (m : MergeStmt) : PartAnswer :=
  if (tables m.source).isNone then (tables, .error (tableNotFound m.source))
  else if (tables m.target).isNone then (tables, .error (tableNotFound m.target))
  else match m.refusedFirst one tables with
    | some e => (tables, .error e)
    | none => Parts.run (runPart one) tables (.ok ()) (m.parts tables)

def joinedValue (name col : String) (row : Row) : Option String :=
  ((row.find (name ++ "." ++ col)).or (row.find col)).filter (· ≠ executorNull)

/-- `merged_row_key`: the key of the row of a table in a joined row. -/
def mergedRowKey (name : String) (cols : List String) (row : Row) : Option String :=
  (cols.mapM fun col => joinedValue name col row).map (String.intercalate "\x00")

/-- A multi-table UPDATE. `joins` has the names and the tables joined; `read` is the join of the
tables with the WHERE. -/
structure MultiUpdate where
  tables : List String
  joins : List (String × String)
  assignments : List (String × (Row → String))
  schemas : Catalog
  read : Tables → Except PartError (List Row)

namespace MultiUpdate

def targetTables (u : MultiUpdate) : List String :=
  u.tables ++ u.joins.map (·.1)

/-- `table_of`; the last join of a name counts. -/
def tableOf (u : MultiUpdate) (name : String) : String :=
  ((u.joins.reverse.find? (·.1 == name)).map (·.2)).getD name

def resolveTbl (u : MultiUpdate) (name : String) : String :=
  (u.targetTables.find? fun t => t == name || ("." ++ name).toList.isSuffixOf t.toList).getD name

/-- The table of an assignment, and its column. -/
def assigned (u : MultiUpdate) (column : String) : String × String :=
  let text := column.toList
  if text.contains '.' then
    (u.resolveTbl (String.ofList (text.takeWhile (· ≠ '.'))),
      String.ofList (text.dropWhile (· ≠ '.')).tail)
  else (u.tables.headD "", column)

/-- The tables that the assignments name, each once. -/
def assignmentTables (u : MultiUpdate) : List String :=
  u.assignments.foldl (fun names a =>
    let name := (u.assigned a.1).1
    if name ∈ names then names else names ++ [name]) []

def assignmentsOf (u : MultiUpdate) (name : String) : List (String × (Row → String)) :=
  u.assignments.filterMap fun a =>
    if (u.assigned a.1).1 = name then some ((u.assigned a.1).2, a.2) else none

def columnsOf (u : MultiUpdate) (name : String) : List String :=
  (u.assignmentsOf name).foldl (fun cols a => if a.1 ∈ cols then cols else cols ++ [a.1]) []

/-- `pk_updates`: the values that the joined rows set, by the key of the row. -/
def pkUpdates (u : MultiUpdate) (name : String) (cols : List String) (joined : List Row) :
    PerRowValues :=
  joined.foldl (fun values row =>
    match mergedRowKey name cols row with
    | none => values
    | some key => Function.update values key
        (some ((u.assignmentsOf name).foldl (fun entry a => entry.set a.1 (a.2 row))
          ((values key).getD ∅)))) fun _ => none

/-- The statement of one table; a table with no row in the join has none. -/
def partOf (u : MultiUpdate) (joined : List Row) (name : String) : Option Part :=
  match u.schemas (u.tableOf name) with
  | none => some (.noTable (u.tableOf name))
  | some schema =>
    let cols := pkCols schema
    if joined.all fun row => (mergedRowKey name cols row).isNone then none
    else some (.update (u.tableOf name) (u.columnsOf name) (u.pkUpdates name cols joined))

def parts (u : MultiUpdate) (joined : List Row) : List Part :=
  u.assignmentTables.filterMap (u.partOf joined)

end MultiUpdate

def execMultiUpdate (one : OneTable) (tables : Tables) (u : MultiUpdate) : PartAnswer :=
  if u.tables = [] then (tables, .error (.text "No tables specified for multi-table UPDATE"))
  else match u.read tables with
    | .error e => (tables, .error e)
    | .ok joined => Parts.run (runPart one) tables (.ok ()) (u.parts joined)

/-- A multi-table DELETE. `aliases` has the aliases of the joined tables. -/
structure MultiDelete where
  deleteTables : List String
  aliases : List (String × String)
  schemas : Catalog
  read : Tables → Except PartError (List Row)

namespace MultiDelete

def aliasOf (d : MultiDelete) (name : String) : Option String :=
  (d.aliases.reverse.find? (·.1 == name)).map (·.2)

/-- The name that the joined rows know a target by: an alias may stand behind the database. -/
def known (d : MultiDelete) (target : String) : String :=
  let last := String.ofList (target.toList.reverse.takeWhile (· ≠ '.')).reverse
  if target.toList.contains '.' && (d.aliasOf last).isSome then last else target

/-- The keys of the rows to delete, each once. -/
def keysOf (name : String) (cols : List String) (joined : List Row) : List (List String) :=
  (joined.filterMap fun row => cols.mapM fun col => joinedValue name col row).foldl
    (fun keys key =>
      let text := fun key : List String => String.join (key.map (· ++ "\x00"))
      if keys.any fun k => text k == text key then keys else keys ++ [key]) []

/-- The statement of one table; a table with no row in the join has none. -/
def partOf (d : MultiDelete) (one : OneTable) (joined : List Row) (target : String) :
    Option Part :=
  let name := d.known target
  let table := (d.aliasOf name).getD name
  match d.schemas table with
  | none => some (.noTable table)
  | some schema =>
    let cols := pkCols schema
    let keys := keysOf name cols joined
    match cols, keys with
    | _, [] => none
    | [col], keys =>
      some (.delete table (.leaf (.other (one.inLeaf col keys.flatten) false)))
    | cols, keys => (MergeStmt.keysCondition cols keys).map (Part.delete table)

def parts (d : MultiDelete) (one : OneTable) (joined : List Row) : List Part :=
  d.deleteTables.filterMap (d.partOf one joined)

end MultiDelete

def execMultiDelete (one : OneTable) (tables : Tables) (d : MultiDelete) : PartAnswer :=
  match d.read tables with
  | .error e => (tables, .error e)
  | .ok joined => Parts.run (runPart one) tables (.ok ()) (d.parts one joined)

end RusqlEngine
