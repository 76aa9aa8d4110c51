import RusqlEngine.Library.StateRun
import RusqlEngine.With

/-!
# Tables that live for one statement

Derived tables, views, CTEs and tables of `information_schema` are read as tables that `exec_select`
and `exec_with` put into the shared maps and take out again behind the nested call. A nested
statement runs through `execute_with_s`, which turns a `StatementError` into its result; the select
over the temporary tables does not, nor does the reading back of a result, which KILL QUERY and the
execution time limit can break off.
-/

namespace RusqlEngine.Temporaries

open Function

/-- `Join`: its table, its subquery with the alias, and whether it is LATERAL. -/
structure JoinOf (σ : Type) where
  table : String
  subquery : Option (σ × String)
  lateral : Bool

/-- The arguments of `exec_select`; `rest` is what else the statement says. -/
structure SelectOf (σ κ : Type) where
  table : String
  subquery : Option (σ × String)
  joins : List (JoinOf σ)
  rest : κ

/-- A statement that reads. `union` tells UNION from INTERSECT and EXCEPT. -/
inductive Statement (κ : Type) : Type
  | select (sel : SelectOf (Statement κ) κ)
  | setOp (union : Bool) (left right : Statement κ) (rest : κ)
  | withCtes (recursive : Bool) (ctes : List (String × Statement κ)) (query : Statement κ)

/-- How a call ends. -/
inductive Outcome
  | ok (text : List Char)
  | err (message : String)
  | thrown (message : String)
deriving DecidableEq

/-- The shared maps: `τ` is a schema of the catalog, `ι` a tree of `s.indexes`. -/
structure Database (κ τ ι : Type) where
  tables : String → Option (List Row)
  indexes : String → Option ι
  catalog : String → Option τ
  views : String → Option (Statement κ)
  temporary : String → Bool

/-- What `exec_select` does over tables: subqueries of its expressions (`run_subquery`) and of a
LATERAL join, one after another, and an end. -/
inductive Work (κ τ ι : Type) : Type
  | done (outcome : Outcome)
  | subquery (statement : Statement κ) (next : Database κ τ ι → List Char → Work κ τ ι)
  | lateral (statement : Statement κ) (next : Database κ τ ι → List Char → Work κ τ ι)

/-- A call of `exec_select` over temporary tables and one over a view, with their ends; a result
that is read back, with the tables that stand in the maps meanwhile and whether that was broken off;
and a CTE that is put into the maps, with whether `s.indexes` has its name. -/
inductive Step
  | overTemporaries (names : List String) (outcome : Outcome)
  | overView (name : String) (outcome : Outcome)
  | readBack (made : List String) (thrown : Bool)
  | cte (name : String) (indexed : Bool)
deriving DecidableEq

/-- The maps, and what was done so far. -/
structure World (κ τ ι : Type) where
  db : Database κ τ ι
  steps : List Step

/-- `qualify_stmt`, `bind_statement`, the check for partitioned tables, the rows of
`information_schema`, the names and types of derived columns, the select itself, the set operations,
and what `deadline::tick` throws while a result is read back. -/
structure Engine (κ τ ι : Type) where
  coll : Collation
  emptyTree : ι
  textColumns : List String → τ
  prepare : Database κ τ ι → Statement κ → Except Outcome (Statement κ)
  infoSchemaName : String → Option String
  infoSchemaTable : Database κ τ ι → String → List Row × τ
  derivedColumnNames : Database κ τ ι → Statement κ → List String
  derivedColumnDefs : Database κ τ ι → Statement κ → List String → List Row → τ
  recursiveTerm : Statement κ → Option SelectStatement
  work : Database κ τ ι → SelectOf (Statement κ) κ → Work κ τ ι
  combine : Database κ τ ι → κ → Statement κ → List Char → List Char → Outcome
  deadline : World κ τ ι → List Char → Option String

namespace Database

variable {κ τ ι : Type} (db : Database κ τ ι)

/-- `s.tables.count(name) || s.views.count(name)`. -/
def taken (name : String) : Bool :=
  (db.tables name).isSome || (db.views name).isSome

/-- `catalog.create_table`: a table that is there stays. -/
def createSchema (name : String) (schema : τ) : Database κ τ ι :=
  if (db.catalog name).isSome then db
  else { db with catalog := update db.catalog name (some schema) }

/-- A temporary table with its rows. -/
def create (name : String) (rows : List Row) (schema : τ) : Database κ τ ι :=
  createSchema { db with
    tables := update db.tables name (some rows)
    temporary := update db.temporary name true } name schema

def drop (name : String) : Database κ τ ι :=
  { db with
    tables := update db.tables name none
    temporary := update db.temporary name false
    catalog := update db.catalog name none }

def dropAll (names : List String) : Database κ τ ι :=
  names.foldl drop db

def setRows (name : String) (rows : List Row) : Database κ τ ι :=
  { db with tables := update db.tables name (some rows) }

/-- The table of a CTE. -/
def createCte (name : String) (rows : List Row) (schema : τ) (tree : ι) : Database κ τ ι :=
  { (db.createSchema name schema).setRows name rows with
    indexes := update db.indexes name (some tree) }

def dropCte (name : String) : Database κ τ ι :=
  { db with
    tables := update db.tables name none
    indexes := update db.indexes name none
    catalog := update db.catalog name none }

def dropCtes (names : List String) : Database κ τ ι :=
  names.foldl dropCte db

def setView (name : String) (view : Option (Statement κ)) : Database κ τ ι :=
  { db with views := update db.views name view }

end Database

/-- A run over the maps; `none` where it does not come to an end. -/
abbrev Run (κ τ ι : Type) :=
  StateT (World κ τ ι) Option

/-- A call: a statement through `execute_with_s`, or `exec_select` itself. -/
inductive Call (κ : Type)
  | statement (st : Statement κ)
  | select (sel : SelectOf (Statement κ) κ)

/-- What `execute_with_s` gives back. -/
def caught : Outcome → Except String (List Char)
  | .ok text => .ok text
  | .err message | .thrown message => .error message

def ofCaught : Except String (List Char) → Outcome
  | .ok text => .ok text
  | .error message => .err message

def JoinOf.derived {σ : Type} (j : JoinOf σ) : Option (σ × String) :=
  if j.lateral then none else j.subquery

def isDual (table : String) : Bool :=
  table == "_dual_" || "._dual_".toList.isSuffixOf table.toList

section

variable {κ τ ι : Type}

def getDb : Run κ τ ι (Database κ τ ι) :=
  fun w => some (w.db, w)

def modifyDb (f : Database κ τ ι → Database κ τ ι) : Run κ τ ι Unit :=
  fun w => some ((), { w with db := f w.db })

def note (step : Step) : Run κ τ ι Unit :=
  fun w => some ((), { w with steps := w.steps ++ [step] })

variable (e : Engine κ τ ι) (exec : Call κ → Run κ τ ι Outcome)

def executeWithS (st : Statement κ) : Run κ τ ι (Except String (List Char)) := do
  return caught (← exec (.statement st))

/-- The call `run_subquery` makes: a SELECT goes to `exec_select` directly. -/
def subqueryCall : Statement κ → Call κ
  | .select sel => .select sel
  | st => .statement st

/-- The select over tables. -/
def runWork : Work κ τ ι → Run κ τ ι Outcome
  | .done outcome => pure outcome
  | .subquery st next => do
      match caught (← exec (subqueryCall st)) with
      | .ok text =>
        let db ← getDb
        runWork (next db text)
      | .error message => pure (.thrown message)
  | .lateral st next => do
      match ← executeWithS exec st with
      | .ok text =>
        let db ← getDb
        runWork (next db text)
      | .error message => pure (.err message)

/-- `parse_table_output`, while the tables `made` stand in the maps. -/
def parseTableOutput (made : List String) (text : List Char) :
    Run κ τ ι (Except String TableOutput) :=
  fun w => some
    (match e.deadline w text with
      | some message => .error message
      | none => .ok (With.parseTableOutput text),
      { w with steps := w.steps ++ [.readBack made (e.deadline w text).isSome] })

/-- `exec_select` over temporary tables that are in the maps, and their removal. -/
def overTemporaries (names : List String) (sel : SelectOf (Statement κ) κ) :
    Run κ τ ι Outcome := do
  let outcome ← exec (.select sel)
  note (.overTemporaries names outcome)
  match outcome with
  | .thrown _ => pure outcome
  | _ =>
    modifyDb fun db => db.dropAll names
    pure outcome

def conflict (name : String) : Outcome :=
  .err ("Alias '" ++ name ++ "' conflicts with an existing table or view")

/-- `col_names`: those of the answer, or of the statement where it has no header. -/
def columnNames (db : Database κ τ ι) (inner : Statement κ) (out : TableOutput) : List String :=
  if out.cols.isEmpty then e.derivedColumnNames db inner else out.cols

def execSelectWithSubquery (inner : Statement κ) (name : String)
    (sel : SelectOf (Statement κ) κ) : Run κ τ ι Outcome := do
  let before ← getDb
  if before.taken name then
    pure (conflict name)
  else
    match ← executeWithS exec inner with
    | .error message => pure (.err message)
    | .ok text =>
      match ← parseTableOutput e [] text with
      | .error message => pure (.thrown message)
      | .ok out =>
        let db ← getDb
        if (columnNames e db inner out).isEmpty then
          pure (.ok "0 rows returned.".toList)
        else
          modifyDb fun now => now.create name out.rows (e.textColumns (columnNames e db inner out))
          overTemporaries exec [name] { sel with table := name, subquery := none }

/-- The derived tables of the FROM list, one after another, and the select over them. -/
def derivedJoins (sel : SelectOf (Statement κ) κ) :
    List (JoinOf (Statement κ)) → List (JoinOf (Statement κ)) → List String → Run κ τ ι Outcome
  | [], done, made => overTemporaries exec made { sel with joins := done }
  | j :: joins, done, made =>
    match j.derived with
    | none => derivedJoins sel joins (done ++ [j]) made
    | some (inner, name) => do
        let before ← getDb
        if before.taken name then
          modifyDb fun db => db.dropAll made
          pure (conflict name)
        else
          match ← executeWithS exec inner with
          | .error message =>
            modifyDb fun db => db.dropAll made
            pure (.err message)
          | .ok text =>
            match ← parseTableOutput e made text with
            | .error message => pure (.thrown message)
            | .ok out =>
              let db ← getDb
              modifyDb fun now =>
                now.create name out.rows (e.textColumns (columnNames e db inner out))
              derivedJoins sel joins (done ++ [{ j with table := name, subquery := none }])
                (made ++ [name])

/-- A name of `information_schema` as it is written in full. -/
def infoName (name : String) : String :=
  (e.infoSchemaName name).getD name

/-- The names of the statement, those of `information_schema` written in full. -/
def noted (sel : SelectOf (Statement κ) κ) : SelectOf (Statement κ) κ :=
  { sel with
    table := infoName e sel.table
    joins := sel.joins.map fun j => { j with table := infoName e j.table } }

/-- `wanted`: the tables of `information_schema` that are to be made. -/
def wanted (db : Database κ τ ι) (sel : SelectOf (Statement κ) κ) : List String :=
  ((sel.table :: sel.joins.map JoinOf.table).filterMap e.infoSchemaName).foldl
    (fun names name =>
      if (db.tables name).isNone ∧ name ∉ names then names ++ [name] else names) []

def execSelect (sel : SelectOf (Statement κ) κ) : Run κ τ ι Outcome :=
  match sel.subquery with
  | some (inner, name) => execSelectWithSubquery e exec inner name sel
  | none =>
    if sel.joins.any fun j => j.derived.isSome then
      derivedJoins e exec sel sel.joins [] []
    else do
      let db ← getDb
      if isDual sel.table then
        runWork exec (e.work db sel)
      else if wanted e db sel ≠ [] then
        modifyDb fun db => (wanted e db sel).foldl (fun d name =>
          d.create name (e.infoSchemaTable db name).1 (e.infoSchemaTable db name).2) db
        overTemporaries exec (wanted e db sel) (noted e sel)
      else
        match db.views (noted e sel).table with
        | some view =>
          modifyDb fun db => db.setView (noted e sel).table none
          let outcome ← execSelectWithSubquery e exec view (noted e sel).table (noted e sel)
          note (.overView (noted e sel).table outcome)
          match outcome with
          | .thrown _ => pure outcome
          | _ =>
            modifyDb fun db => db.setView (noted e sel).table (some view)
            pure outcome
        | none => runWork exec (e.work db (noted e sel))

/-- The rounds of a recursive CTE over the tables `made`; the first number is how many are left. -/
def rounds (made : List String) (name : String) (right : Statement κ) (cols : List String)
    (semiNaive : Bool) : Nat → CteLoop → Run κ τ ι (Except Outcome (List Row))
  | 0, _ => pure (.error (.err (RecursiveCte.notReached name)))
  | n + 1, st => do
      modifyDb fun db => db.setRows name (RecursiveCte.roundInput semiNaive st)
      match ← executeWithS exec right with
      | .error message => pure (.error (.err message))
      | .ok text =>
        match ← parseTableOutput e made text with
        | .error message => pure (.error (.thrown message))
        | .ok out =>
          let fresh := RecursiveCte.freshRows e.coll cols st (out.rows.map (mapRow cols out.cols))
          if fresh.isEmpty then
            pure (.ok st.accumulated)
          else
            rounds made name right cols semiNaive n
              (RecursiveCte.advance e.coll cols semiNaive st fresh)

/-- The main query of a WITH, over the CTEs. -/
def mainQuery (query : Statement κ) (names : List String) : Run κ τ ι Outcome := do
  let result ← executeWithS exec query
  modifyDb fun db => db.dropCtes names
  pure (ofCaught result)

/-- A CTE in the maps. -/
def addCte (name : String) (rows : List Row) (schema : Database κ τ ι → τ) : Run κ τ ι Unit := do
  let db ← getDb
  note (.cte name (db.indexes name).isSome)
  modifyDb fun db => db.createCte name rows (schema db) e.emptyTree

/-- The base and the term of a recursive body. -/
def recursiveParts (recursive : Bool) : Statement κ → Option (Statement κ × Statement κ)
  | .setOp true left right _ => if recursive then some (left, right) else none
  | _ => none

/-- `exec_with`, behind the CTEs `names`. -/
def execWith (recursive : Bool) (query : Statement κ) :
    List (String × Statement κ) → List String → Run κ τ ι Outcome
  | [], names => mainQuery exec query names
  | (name, body) :: ctes, names => do
      let before ← getDb
      if before.taken name then
        modifyDb fun db => db.dropCtes names
        pure (.err ("CTE name '" ++ name ++ "' conflicts with an existing table or view"))
      else
        match recursiveParts recursive body with
        | some (left, right) =>
          match ← executeWithS exec left with
          | .error message =>
            modifyDb fun db => db.dropCtes names
            pure (.err message)
          | .ok text =>
            match ← parseTableOutput e names text with
            | .error message => pure (.thrown message)
            | .ok base =>
              addCte e name base.rows fun db => e.derivedColumnDefs db left base.cols base.rows
              match ← rounds e exec (names ++ [name]) name right base.cols
                  (semiNaiveOk name (e.recursiveTerm right)) 1000
                  (RecursiveCte.startLoop e.coll base) with
              | .error (.thrown message) => pure (.thrown message)
              | .error outcome =>
                modifyDb fun db => db.dropCtes (names ++ [name])
                pure outcome
              | .ok rows =>
                modifyDb fun db => db.setRows name rows
                mainQuery exec query (names ++ [name])
        | none =>
          match ← executeWithS exec body with
          | .error message =>
            modifyDb fun db => db.dropCtes names
            pure (.err message)
          | .ok text =>
            match ← parseTableOutput e names text with
            | .error message => pure (.thrown message)
            | .ok out =>
              addCte e name out.rows fun db => e.derivedColumnDefs db body out.cols out.rows
              execWith recursive query ctes (names ++ [name])

/-- `exec_union`, `exec_intersect` and `exec_except`. -/
def execSetOp (left right : Statement κ) (rest : κ) : Run κ τ ι Outcome := do
  match ← executeWithS exec left with
  | .error message => pure (.err message)
  | .ok leftText =>
    match ← executeWithS exec right with
    | .error message => pure (.err message)
    | .ok rightText =>
      let db ← getDb
      pure (e.combine db rest left leftText rightText)

/-- `execute_with_s_body`. -/
def executeBody (st : Statement κ) : Run κ τ ι Outcome := do
  let db ← getDb
  match e.prepare db st with
  | .error outcome => pure outcome
  | .ok (.select sel) => exec (.select sel)
  | .ok (.setOp _ left right rest) => execSetOp e exec left right rest
  | .ok (.withCtes recursive ctes query) => execWith e exec recursive query ctes []

/-- A call, its nested calls being run by `exec`. -/
def call : Call κ → Run κ τ ι Outcome
  | .select sel => execSelect e exec sel
  | .statement st => do
      let outcome ← executeBody e exec st
      pure (ofCaught (caught outcome))

def run : Nat → Call κ → Run κ τ ι Outcome
  | 0 => fun _ _ => none
  | n + 1 => call e (run n)

end

end RusqlEngine.Temporaries
