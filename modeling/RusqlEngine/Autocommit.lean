import RusqlEngine.Redo

/-!
# Statements outside a transaction and what makes them durable

The memory of a server that nobody else uses, its files and its redo log. A statement changes rows
and gathers operations that its end appends to the log, unless an exception ends it; DDL, an
automatic vacuum and routines the log does not cover write files at once. A statement does any of
the actions that its text allows, in any order.
-/

namespace RusqlEngine

/-- A table in memory, or its schema file and its table file. -/
structure TableData where
  schema : TableSchema
  autoIncrementCounters : List (String × Int)
  rows : List Row

abbrev TableStore := String → Option TableData

namespace TableStore

def put (store : TableStore) (name : String) (data : Option TableData) : TableStore := fun n =>
  if n = name then data else store n

/-- Other rows under the same schema. -/
def putRows (store : TableStore) (name : String) (rows : List Row) : TableStore :=
  store.put name ((store name).map fun data => { data with rows := rows })

/-- Another schema over the same rows. -/
def putSchema (store : TableStore) (name : String) (schema : TableSchema)
    (counters : List (String × Int)) : TableStore :=
  store.put name ((store name).map fun data =>
    { data with schema := schema, autoIncrementCounters := counters })

end TableStore

/-- `redoOps` is what the statement has logged and not yet written. -/
structure Server where
  tables : TableStore
  files : TableStore
  redoLog : List RedoOp
  redoDirty : List String
  redoOps : List RedoOp
  nextId : Nat

abbrev RowChange :=
  { change : Row → Row // ∀ row, (change row).find "_xmin" = row.find "_xmin" ∧
      (change row).find "_xmax" = row.find "_xmax" }

inductive WriteStep
  /-- `tagging_txn_id`. -/
  | takeId
  /-- `log_insert` and `push_back`. -/
  | insert (table : String) (row : Row) (id : Nat)
  /-- `log_insert` of a row that is not stored then. -/
  | log (table : String) (row : Row) (id : Nat)
  /-- `log_update`; the version is ended and the new one appended. -/
  | rewrite (table : String) (pos : Nat) (row : Row) (id : Nat)
  /-- `log_delete` of rows that go for good. -/
  | erase (table : String) (chosen : Nat → Bool)
  /-- `write_through`. -/
  | flush (table : String)
  /-- The vacuum of one table, by hand or by itself. -/
  | vacuum (table : String)
  /-- `save_schema` of a changed schema, or of the AUTO_INCREMENT counters. -/
  | saveSchema (table : String) (schema : TableSchema) (counters : List (String × Int))
  /-- An action of ALTER TABLE that changes the rows. -/
  | alter (table : String) (schema : TableSchema) (counters : List (String × Int))
      (change : RowChange)
  | create (table : String) (schema : TableSchema) (counters : List (String × Int))
  | drop (table : String)
  | truncate (table : String)
  | rename (table target : String) (schema : TableSchema)

namespace Server

def keptRows (rows : List Row) (chosen : Nat → Bool) : List Row :=
  (rows.zipIdx.filter fun p => !(chosen p.2 && isVisible p.1)).map (·.1)

def goneRows (rows : List Row) (chosen : Nat → Bool) : List Row :=
  (rows.zipIdx.filter fun p => chosen p.2 && isVisible p.1).map (·.1)

def redoMarkFlushed (s : Server) (table : String) : Server :=
  if s.redoLog = [] then s else { s with redoLog := s.redoLog ++ [flushedMarker table] }

def vacuumed (s : Server) (rows : List Row) : List Row :=
  rows.filter fun row => !isVacuumable row s.nextId

/-- One write of a statement. -/
def runStep (s : Server) : WriteStep → Server
  | .takeId => { s with nextId := s.nextId + 1 }
  | .insert table row id =>
    match s.tables table with
    | none => s
    | some data =>
      { s with
        tables := s.tables.putRows table (data.rows ++ [row.tag id])
        redoOps := s.redoOps ++ [⟨.insertVersion, table, row.tag id, ""⟩] }
  | .log table row id =>
    { s with redoOps := s.redoOps ++ [⟨.insertVersion, table, row.tag id, ""⟩] }
  | .rewrite table pos row id =>
    match s.tables table with
    | none => s
    | some data =>
      match data.rows[pos]? with
      | none => s
      | some old =>
        if isVisible old then
          { s with
            tables := s.tables.putRows table
              (data.rows.set pos (old.set "_xmax" (stdToString id)) ++ [row.tag id])
            redoOps := s.redoOps ++ [⟨.setXmax, table, old, stdToString id⟩,
              ⟨.insertVersion, table, row.tag id, ""⟩] }
        else s
  | .erase table chosen =>
    match s.tables table with
    | none => s
    | some data =>
      { s with
        tables := s.tables.putRows table (keptRows data.rows chosen)
        redoOps := s.redoOps ++
          (goneRows data.rows chosen).map fun row => ⟨.setXmax, table, row, ""⟩ }
  | .flush table =>
    match s.tables table with
    | none => s
    | some data => { s with files := s.files.putRows table data.rows }
  | .vacuum table =>
    match s.tables table with
    | none => s
    | some data =>
      if (s.vacuumed data.rows).length < data.rows.length then
        { s with
          tables := s.tables.putRows table (s.vacuumed data.rows)
          files := s.files.putRows table (s.vacuumed data.rows) }.redoMarkFlushed table
      else s
  | .saveSchema table schema counters =>
    { s with
      tables := s.tables.putSchema table schema counters
      files := s.files.putSchema table schema counters }
  | .alter table schema counters change =>
    match s.tables table with
    | none => s
    | some data =>
      { s with
        tables := s.tables.put table (some ⟨schema, counters, data.rows.map change.1⟩)
        files := s.files.put table (some ⟨schema, counters, data.rows.map change.1⟩) }
  | .create table schema counters =>
    if (s.tables table).isSome then s
    else
      { s with
        tables := s.tables.put table (some ⟨schema, counters, []⟩)
        files := s.files.put table (some ⟨schema, counters, []⟩) }
  | .drop table => { s with tables := s.tables.put table none, files := s.files.put table none }
  | .truncate table =>
    match s.tables table with
    | none => s
    | some data =>
      { s with
        tables := s.tables.put table (some { data with rows := [], autoIncrementCounters := [] })
        files := s.files.putRows table [] }
  | .rename table target schema =>
    match s.tables table with
    | none => s
    | some data =>
      if (s.tables target).isSome then s
      else
        let renamed := some { data with schema := schema }
        { s with
          tables := (s.tables.put table none).put target renamed
          files := (s.files.put table none).put target renamed }

/-- `checkpoint_redo_locked`. -/
def checkpointRedo (s : Server) : Server :=
  { s with
    files := fun name =>
      if name ∈ s.redoDirty then
        match s.tables name with
        | none => s.files name
        | some data => s.files.putRows name data.rows name
      else s.files name
    redoDirty := []
    redoLog := [] }

/-- `take_redo_ops` with an id of its own, and `write_redo_batch`. -/
def writeRedoBatch (s : Server) : Server :=
  let ops := s.redoOps.map (fillXmax (stdToString s.nextId))
  { s with
    nextId := s.nextId + 1
    redoOps := []
    redoDirty := if ops = [] then s.redoDirty else ops.map (·.table) ++ s.redoDirty
    redoLog := s.redoLog ++ ops }

end Server

/-- The steps that DDL has. -/
def WriteStep.isDdl : WriteStep → Bool
  | .saveSchema _ _ _ | .alter _ _ _ _ | .create _ _ _ | .drop _ | .truncate _ | .rename _ _ _ =>
    true
  | _ => false

/-- The rows of one table that the foreign keys of a DELETE rewrite, and the positions of the ones
they delete. -/
structure PlannedTable where
  name : String
  rewrites : List (Nat × Row)
  deleted : List Nat

/-- What the code of one statement does at a time. -/
inductive StmtAction
  /-- The rows of an INSERT; an id is taken for each one that reaches its last checks, also for
  one that is then left out. -/
  | insert (table : String) (rows : List (Option Row))
  /-- The same, where `row_to_json` throws at a text that is not UTF-8: the rows before it are
  logged and none is stored. -/
  | insertThrows (table : String) (rows : List (Option Row)) (logged : Nat)
  /-- The own rows of an UPDATE, and the rows of its foreign-key actions unless these are
  refused. -/
  | update (table : String) (own : List (Nat × Row))
      (cascade : Option { c : List (String × List (Nat × Row)) // (c.map (·.1)).Nodup })
  | delete (table : String) (plan : List PlannedTable) (own : Nat → Bool)
  | vacuum (table : String)
  /-- The AUTO_INCREMENT counters that an INSERT has moved on. -/
  | saveCounters (table : String) (schema : TableSchema) (counters : List (String × Int))
  | ddl (step : WriteStep) (h : step.isDdl)

namespace StmtAction

def rewriteSteps (table : String) (id : Nat) (writes : List (Nat × Row)) : List WriteStep :=
  writes.map fun w => .rewrite table w.1 w.2 id

/-- The rows of an INSERT, each with its id. -/
def rowSteps (write : Row → Nat → WriteStep) (nextId : Nat) (rows : List (Option Row)) :
    List WriteStep :=
  rows.zipIdx.filterMap fun p => p.1.map fun row => write row (nextId + p.2)

/-- `exec_insert_inner`: the ids, and then the rows. -/
def insertSteps (table : String) (nextId : Nat) (rows : List (Option Row)) : List WriteStep :=
  rows.map (fun _ => .takeId) ++ rowSteps (.insert table) nextId rows

/-- The part of `exec_update_inner` that writes. -/
def updateSteps (covered : Bool) (table : String) (id : Nat) (own : List (Nat × Row))
    (cascade : Option (List (String × List (Nat × Row)))) : List WriteStep :=
  .takeId :: (rewriteSteps table id own ++
    match cascade with
    | none => []
    | some cascade =>
      (cascade.flatMap fun c => rewriteSteps c.1 id c.2 ++
        if covered = false ∧ c.2 ≠ [] then [.flush c.1] else []) ++
      if covered then [] else [.flush table])

/-- The part of `exec_delete` that writes. -/
def deleteSteps (covered : Bool) (table : String) (id : Nat) (plan : List PlannedTable)
    (own : Nat → Bool) : List WriteStep :=
  .takeId :: (plan.flatMap (fun c => rewriteSteps c.name id c.rewrites) ++
    plan.map (fun c => .erase c.name fun pos => decide (pos ∈ c.deleted)) ++
    (if covered then []
      else (plan.filter fun c => c.name ≠ table ∧ (c.deleted ≠ [] ∨ c.rewrites ≠ [])).map fun c =>
        .flush c.name) ++
    [.erase table own])

/-- The writes of an action, with the id that is handed out next. -/
def steps (covered : Bool) (nextId : Nat) : StmtAction → List WriteStep
  | .insert table rows => insertSteps table nextId rows
  | .insertThrows table rows logged =>
    rows.map (fun _ => .takeId) ++ (rowSteps (.log table) nextId rows).take logged
  | .update table own cascade => updateSteps covered table nextId own (cascade.map (·.1))
  | .delete table plan own => deleteSteps covered table nextId plan own
  | .vacuum table => [.vacuum table]
  | .saveCounters table schema counters => [.saveSchema table schema counters]
  | .ddl step _ => [step]

def isDdl : StmtAction → Bool
  | .ddl _ _ => true
  | _ => false

end StmtAction

/-- A statement, as far as it decides what is made durable when: branches of IF and bodies of loops
are blocks. -/
inductive RoutineStmt
  | query
  /-- INSERT, UPDATE, DELETE, MERGE and the multi-table statements, with the tables they write. -/
  | write (tables : List String)
  | vacuum
  | ddl
  | block (body : List RoutineStmt)
  | call (name : String)

def RoutineStmt.isVacuum : RoutineStmt → Bool
  | .vacuum => true
  | _ => false

/-- The stored routines. `base` is the table that a written name stands for: none for a synonym,
for a view that cannot be written through and for a name without a table. -/
structure Routines where
  procedures : String → Option (List RoutineStmt)
  triggers : List (String × List RoutineStmt)
  base : String → Option String

namespace Routines

mutual

/-- The statement may change stored data, given what the calls may do. -/
def changes (callChanges : String → Bool) : RoutineStmt → Bool
  | .query => false
  | .write _ | .vacuum | .ddl => true
  | .block body => changesAny callChanges body
  | .call name => callChanges name

def changesAny (callChanges : String → Bool) : List RoutineStmt → Bool
  | [] => false
  | stmt :: body => changes callChanges stmt || changesAny callChanges body

end

/-- The calls that are followed end at a depth of eight. -/
def callChanges (r : Routines) : Nat → String → Bool
  | 0, _ => true
  | depth + 1, name =>
    match r.procedures name with
    | none => true
    | some body => changesAny (r.callChanges depth) body

def mayChangeStoredData (r : Routines) (stmt : RoutineStmt) : Bool :=
  changes (r.callChanges 8) stmt

mutual

/-- The log describes everything that the statement does, given the ones a level deeper. -/
def covered (r : Routines) (below : RoutineStmt → Bool) : RoutineStmt → Bool
  | .query => true
  | .write tables => tables.all fun name =>
    match r.base name with
    | none => false
    | some table => r.triggers.all fun t => t.1 != table || t.2.all below
  | .vacuum | .ddl => false
  | .block body => !r.mayChangeStoredData (.block body) || coveredAll r below body
  | .call name => !r.mayChangeStoredData (.call name) ||
      match r.procedures name with
      | none => false
      | some body => body.all below

def coveredAll (r : Routines) (below : RoutineStmt → Bool) : List RoutineStmt → Bool
  | [] => true
  | stmt :: body => covered r below stmt && coveredAll r below body

end

def coversAt (r : Routines) : Nat → RoutineStmt → Bool
  | 0, _ => false
  | depth + 1, stmt => r.covered (r.coversAt depth) stmt

def redoCoversStatement (r : Routines) (stmt : RoutineStmt) : Bool :=
  r.coversAt 8 stmt

/-- The actions that the text of a statement allows. -/
inductive MayDo (r : Routines) : RoutineStmt → StmtAction → Prop
  | write {tables : List String} {action : StmtAction} (h : action.isDdl = false) :
      MayDo r (.write tables) action
  | trigger {tables : List String} {t : String × List RoutineStmt} {stmt : RoutineStmt}
      {action : StmtAction} (ht : t ∈ r.triggers) (hstmt : stmt ∈ t.2) (h : MayDo r stmt action) :
      MayDo r (.write tables) action
  | vacuum (table : String) : MayDo r .vacuum (.vacuum table)
  | ddl (action : StmtAction) : MayDo r .ddl action
  | block {body : List RoutineStmt} {stmt : RoutineStmt} {action : StmtAction}
      (hstmt : stmt ∈ body) (h : MayDo r stmt action) : MayDo r (.block body) action
  | call {name : String} {body : List RoutineStmt} {stmt : RoutineStmt} {action : StmtAction}
      (hbody : r.procedures name = some body) (hstmt : stmt ∈ body) (h : MayDo r stmt action) :
      MayDo r (.call name) action

end Routines

/-- A statement with what it did: `locked`, it took the locks of its tables only; `checkpoint`, the
log had grown past its limit before it; `thrown`, an exception that is no `StatementError` ended
it. -/
structure Executed where
  stmt : RoutineStmt
  locked : Bool
  checkpoint : Bool
  actions : List StmtAction
  thrown : Bool

namespace Server

def runAction (covered : Bool) (s : Server) (action : StmtAction) : Server :=
  (action.steps covered s.nextId).foldl runStep s

/-- What `execute` does before the actions of a statement: the checkpoint of a grown log, and the
one before a statement that writes files itself. -/
def prepare (r : Routines) (s : Server) (e : Executed) : Server :=
  let s := if e.checkpoint then s.checkpointRedo else s
  let mutating := r.mayChangeStoredData e.stmt
  let leavesLog := e.locked || r.redoCoversStatement e.stmt || e.stmt.isVacuum
  if mutating && !leavesLog && s.redoDirty ≠ [] then s.checkpointRedo else s

/-- `redo_covered_stmt_`. -/
def coveredStmt (r : Routines) (e : Executed) : Bool :=
  e.locked || (r.mayChangeStoredData e.stmt && r.redoCoversStatement e.stmt)

/-- The actions of a statement. -/
def runActions (r : Routines) (s : Server) (e : Executed) : Server :=
  e.actions.foldl (runAction (coveredStmt r e)) (s.prepare r e)

/-- `execute` of a statement outside a transaction: an exception passes the end of it by. -/
def execute (r : Routines) (s : Server) (e : Executed) : Server :=
  let s := s.runActions r e
  if !e.thrown && r.mayChangeStoredData e.stmt then s.writeRedoBatch else s

end Server

end RusqlEngine
