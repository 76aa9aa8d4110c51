import RusqlEngine.Keys
import Mathlib.Data.List.Sort

/-!
# What a changed or removed row does through the foreign keys

`CascadeSim` follows the foreign keys on the rows in memory and writes nothing: it gathers the rows
that go and those rewritten, or the message that refuses the statement. A level of the source is
`kCascadeDepthLimit` less the depth here. What the cache of a child's foreign-key values answers is
a parameter.
-/

namespace RusqlEngine

inductive FkAction
  | restrict
  | cascade
  | setNull
  | setDefault
deriving DecidableEq, Repr

structure ForeignKey where
  refTable : String
  refColumn : String
  onDelete : FkAction
  onUpdate : FkAction
deriving DecidableEq, Repr

/-- A column as a child: its foreign keys and its default. -/
structure FkColumn where
  name : String
  foreignKeys : List ForeignKey
  defaultValue : Option String
deriving DecidableEq, Repr

abbrev FkCatalog := List (String × List FkColumn)

/-- `CascadeSim::Edge`: a foreign key with the child it belongs to. -/
structure Edge where
  table : String
  column : String
  refColumn : String
  onDelete : FkAction
  onUpdate : FkAction
  defaultValue : String
  parent : String
deriving DecidableEq, Repr

/-- The foreign keys of a column, in the order of their declaration. -/
def columnEdges (table : String) (col : FkColumn) : List Edge :=
  col.foreignKeys.map fun fk =>
    ⟨table, col.name, fk.refColumn, fk.onDelete, fk.onUpdate, col.defaultValue.getD executorNull,
      fk.refTable⟩

def FkCatalog.edges (catalog : FkCatalog) : List Edge :=
  (catalog.insertionSort fun a b => a.1 ≤ b.1).flatMap fun t => t.2.flatMap (columnEdges t.1)

/-- What the planner reads. `absent` is `fk_children_absent`. -/
structure CascadeDb where
  coll : Collation
  catalog : FkCatalog
  tables : Tables
  absent : String → String → String → Bool

/-- `CascadeSim::State` of every table, the scans that a column has had, and the rows that the
plan names. -/
structure CascadeSim where
  gone : String → Nat → Bool
  rewritten : String → Nat → Option Row
  scans : String → String → Nat
  doomed : List (String × Row)
  deleted : List (String × Nat)

instance deleted_lawfulBEq : LawfulBEq (String × Nat) := inferInstance

def kCascadeDepthLimit : Nat :=
  15

def kScansBeforeIndex : Nat :=
  6

def CascadeSim.start : CascadeSim where
  gone := fun _ _ => false
  rewritten := fun _ _ => none
  scans := fun _ _ => 0
  doomed := []
  deleted := []

namespace CascadeDb

def edgesOf (db : CascadeDb) (parent : String) : List Edge :=
  db.catalog.edges.filter fun e => e.parent = parent

def byChild (db : CascadeDb) (table column : String) : List Edge :=
  db.catalog.edges.filter fun e => e.table = table ∧ e.column = column

def rowsOf (db : CascadeDb) (table : String) : List Row :=
  (db.tables table).getD []

def imageOf (db : CascadeDb) (sim : CascadeSim) (table : String) (pos : Nat) : Row :=
  (sim.rewritten table pos).getD ((db.rowsOf table).getD pos ∅)

def valueOf (db : CascadeDb) (sim : CascadeSim) (table : String) (pos : Nat) (column : String) :
    String :=
  ((db.imageOf sim table pos).find column).getD executorNull

/-- The lambda `consider`. -/
def considers (db : CascadeDb) (sim : CascadeSim) (e : Edge) (parentValue : String) (pos : Nat) :
    Bool :=
  !sim.gone e.table pos && isVisible ((db.rowsOf e.table).getD pos ∅) &&
    db.coll.equal (db.valueOf sim e.table pos e.column) parentValue

/-- The positions that a scan of the child's table looks at. -/
def scanned (db : CascadeDb) (e : Edge) (parentValue : String) : List Nat :=
  (List.range (db.rowsOf e.table).length).filter fun pos =>
    (((db.rowsOf e.table).getD pos ∅).find e.column).any fun text => db.coll.equal text parentValue

/-- The positions that the index of the column holds under a value. -/
def indexed (db : CascadeDb) (e : Edge) (parentValue : String) : List Nat :=
  (List.range (db.rowsOf e.table).length).filter fun pos =>
    let row := (db.rowsOf e.table).getD pos ∅
    isVisible row && (row.find e.column).any fun text =>
      text ≠ executorNull && db.coll.key text == db.coll.key parentValue

/-- One more look at a column; past `kScansBeforeIndex` it has an index. -/
def countScan (sim : CascadeSim) (e : Edge) : CascadeSim :=
  if kScansBeforeIndex < sim.scans e.table e.column then sim
  else { sim with scans := fun table column =>
    if table = e.table ∧ column = e.column then sim.scans table column + 1
    else sim.scans table column }

def childrenOf (db : CascadeDb) (sim : CascadeSim) (e : Edge) (parentValue : String) :
    List Nat × CascadeSim :=
  if parentValue = executorNull then ([], sim)
  else if (db.tables e.table).isNone then ([], sim)
  else if db.absent e.table e.column parentValue then ([], sim)
  else
    let counted := countScan sim e
    let looked := if kScansBeforeIndex < counted.scans e.table e.column
      then db.indexed e parentValue else db.scanned e parentValue
    (looked.filter (db.considers counted e parentValue), counted)

def fkChildViolation (db : CascadeDb) (refTable refColumn value : String) : Option String :=
  if value = executorNull then none
  else match db.tables refTable with
    | none => some ("Referenced table '" ++ refTable ++ "' not found")
    | some rows =>
      if rows.any (fun row => isVisible row &&
          (row.find refColumn).any fun text => db.coll.equal text value) then none
      else some ("Foreign key violation: '" ++ value ++ "' not found in '" ++ refTable ++ "'.'"
        ++ refColumn ++ "'")

def otherParentMissing (db : CascadeDb) (via : Edge) (value : String) : Option String :=
  if value = executorNull then none
  else if (db.byChild via.table via.column).length < 2 then none
  else (db.byChild via.table via.column).findSome? fun other =>
    if other.parent = via.parent ∧ other.refColumn = via.refColumn then none
    else db.fkChildViolation other.parent other.refColumn value

def restrictedDelete (table : String) (e : Edge) : String :=
  "Foreign key violation: row in '" ++ table ++ "' is referenced by '" ++ e.table ++ "'.'" ++
    e.column ++ "'"

def restrictedUpdate (table column : String) (e : Edge) : String :=
  "Foreign key violation (ON UPDATE RESTRICT): '" ++ column ++ "' of '" ++ table ++
    "' is referenced by '" ++ e.table ++ "'.'" ++ e.column ++ "'"

def tooDeep : String :=
  "Foreign key cascade delete/update exceeds max depth of 15."

/-- What `change_key` does, below the tables of `path`: from the table, the column and its old
and new value. -/
abbrev Follow := List String → String → String → String → String → CascadeSim →
  Except String CascadeSim

/-- The row at `pos` takes the images' new value. -/
def setImage (db : CascadeDb) (sim : CascadeSim) (table : String) (pos : Nat)
    (column value : String) : CascadeSim :=
  { sim with rewritten := fun t p =>
      if t = table ∧ p = pos then some ((db.imageOf sim table pos).set column value)
      else sim.rewritten t p }

def rewriteColumn (db : CascadeDb) (changeKey : Follow) (path : List String) (table : String)
    (pos : Nat) (column newValue : String) (sim : CascadeSim) : Except String CascadeSim :=
  let oldValue := db.valueOf sim table pos column
  if oldValue = newValue then .ok sim
  else do
    let sim ← changeKey path table column oldValue newValue sim
    return db.setImage sim table pos column newValue

/-- The children of one foreign key take a value, those that are not gone by then. -/
def rewriteChildren (db : CascadeDb) (changeKey : Follow) (path : List String) (e : Edge)
    (value : String) (kids : List Nat) (sim : CascadeSim) : Except String CascadeSim :=
  kids.foldlM (fun sim kid =>
    if sim.gone e.table kid then .ok sim
    else match db.otherParentMissing e value with
      | some refused => .error refused
      | none => db.rewriteColumn changeKey path e.table kid e.column value sim) sim

def actionValue (e : Edge) (newValue : String) : FkAction → String
  | .cascade => newValue
  | .setDefault => e.defaultValue
  | _ => executorNull

/-- One foreign key in `change_key`; `next` is `change_key` one level below, `none` at the
last level. -/
def changeKeyEdge (db : CascadeDb) (next : Option Follow) (path : List String)
    (table column oldValue newValue : String) (sim : CascadeSim) (e : Edge) :
    Except String CascadeSim :=
  if e.refColumn ≠ column then .ok sim
  else
    let found := db.childrenOf sim e oldValue
    if found.1 = [] then .ok found.2
    else if e.onUpdate = .restrict ∨ e.table ∈ path then .error (restrictedUpdate table column e)
    else match next with
      | none => .error tooDeep
      | some changeKey =>
        db.rewriteChildren changeKey path e (actionValue e newValue e.onUpdate) found.1 found.2

/-- The body of `change_key`. -/
def changeKeyBody (db : CascadeDb) (next : Option Follow) : Follow :=
  fun path table column oldValue newValue sim =>
    if oldValue = executorNull ∨ oldValue = newValue then .ok sim
    else (db.edgesOf table).foldlM
      (db.changeKeyEdge next (table :: path) table column oldValue newValue) sim

/-- `change_key`, with the levels that are left. -/
def changeKey (db : CascadeDb) : Nat → Follow
  | 0 => db.changeKeyBody none
  | 1 => db.changeKeyBody none
  | depth + 2 => db.changeKeyBody (some (db.changeKey (depth + 1)))

/-- A row goes: it is marked, and it joins the plan. -/
def markGone (db : CascadeDb) (sim : CascadeSim) (named : Bool) (table : String) (pos : Nat) :
    CascadeSim :=
  { sim with
    gone := fun t p => (t = table ∧ p = pos) || sim.gone t p
    doomed := sim.doomed ++ [(table, db.imageOf sim table pos)]
    deleted := if named then sim.deleted else sim.deleted ++ [(table, pos)] }

/-- One foreign key in `delete_row`; `next` is `delete_row` one level below, `none` at the
last level. -/
def deleteRowEdge (db : CascadeDb) (next : Option (String → Nat → CascadeSim →
    Except String CascadeSim)) (changeKey : Follow) (table : String) (pos : Nat)
    (sim : CascadeSim) (e : Edge) : Except String CascadeSim :=
  let parentValue := db.valueOf sim table pos e.refColumn
  if parentValue = executorNull then .ok sim
  else
    let found := db.childrenOf sim e parentValue
    match e.onDelete with
    | .restrict =>
      if found.1 ≠ [] ∨ (e.table = table ∧
          db.coll.equal (db.valueOf found.2 table pos e.column) parentValue) then
        .error (restrictedDelete table e)
      else .ok found.2
    | .cascade =>
      match next with
      | none => if found.1 = [] then .ok found.2 else .error tooDeep
      | some deleteRow => found.1.foldlM (fun sim kid =>
        if sim.gone e.table kid then .ok sim else deleteRow e.table kid sim) found.2
    | action => db.rewriteChildren changeKey [] e
        (actionValue e executorNull action) found.1 found.2

/-- `delete_row`, with the levels that are left. -/
def deleteRow (db : CascadeDb) : Nat → String → Nat → CascadeSim → Except String CascadeSim
  | 0, table, pos, sim => (db.edgesOf table).foldlM
      (db.deleteRowEdge none (db.changeKey 0) table pos) (db.markGone sim false table pos)
  | 1, table, pos, sim => (db.edgesOf table).foldlM
      (db.deleteRowEdge none (db.changeKey 0) table pos) (db.markGone sim false table pos)
  | depth + 2, table, pos, sim => (db.edgesOf table).foldlM
      (db.deleteRowEdge (some (db.deleteRow (depth + 1))) (db.changeKey (depth + 1)) table pos)
      (db.markGone sim (decide (depth + 2 = kCascadeDepthLimit)) table pos)

/-- `plan_cascade_update`: the old and the new image of every row that is rewritten, and the columns
that it sets. -/
def planCascadeUpdate (db : CascadeDb) (table : String) (pairs : List (Row × Row))
    (changedCols : List String) : Except String CascadeSim :=
  pairs.foldlM (fun sim pair =>
    changedCols.foldlM (fun sim column =>
      if (db.edgesOf table).all (fun e => e.refColumn ≠ column) then .ok sim
      else match pair.1.find column with
        | none => .ok sim
        | some before => db.changeKey kCascadeDepthLimit [] table column before
            ((pair.2.find column).getD executorNull) sim) sim) CascadeSim.start

end CascadeDb

end RusqlEngine
