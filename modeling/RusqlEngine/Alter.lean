import RusqlEngine.Cascade
import RusqlEngine.UniqueCheck
import RusqlEngine.Library.Parts

/-!
# ALTER TABLE

`exec_alter` carries out one action on the table in memory. `coerce_column_value`,
`value_matches_data_type`, the evaluation of a CHECK text and the collation are parameters. A table
of the catalog has its rows, so the two maps of the source are one here; actions on partitions and
the contents of the indexes are left out.
-/

namespace RusqlEngine.Ddl

open Function

inductive DataType
  | int
  | bigInt
  | smallInt
  | tinyInt
  | text
  | float
  | boolean
  | varchar (length : Nat)
  | date
  | dateTime (fsp : Nat)
  | timestamp (fsp : Nat)
  | decimal (precision scale : Nat)
  | double
  | time (fsp : Nat)
  | year
  | enum (values : List String)
  | set (values : List String)
  | blob
  | json
  | unknown
deriving DecidableEq, Repr

structure ForeignKey where
  column : String
  refTable : String
  refColumn : String
  onDelete : FkAction
  onUpdate : FkAction
  name : String
  restrictDelete : Bool
  restrictUpdate : Bool
deriving DecidableEq, Repr

structure ColumnDef where
  name : String
  dataType : DataType
  primaryKey : Bool := false
  notNull : Bool := false
  unique : Bool := false
  uniqueConstraintName : Option String := none
  autoIncrement : Bool := false
  defaultValue : Option String := none
  foreignKeys : List ForeignKey := []
  checkExpr : Option String := none
  onUpdateNow : Bool := false
  isUnsigned : Bool := false
deriving DecidableEq, Repr

structure UniqueKey where
  name : Option String
  columns : List String
deriving DecidableEq, Repr

structure CheckConstraint where
  name : Option String
  expression : String
deriving DecidableEq, Repr

structure TableSchema where
  name : String
  columns : List ColumnDef
  autoIncrementCounters : String → Option Int
  primaryKeyColumns : List String
  checkConstraints : List CheckConstraint
  uniqueKeys : List UniqueKey
  partitioned : Bool

/-- A table of the catalog with its rows. -/
structure Table where
  schema : TableSchema
  rows : List Row

/-- An entry of `index_meta`, `hash_index_meta` or `composite_indexes`. -/
structure IndexDef where
  key : String
  table : String
  columns : List String
deriving DecidableEq, Repr

structure Db where
  tables : String → Option Table
  indexMeta : List IndexDef
  hashIndexMeta : List IndexDef
  compositeIndexes : List IndexDef

/-- What `exec_alter` calls to convert, check and compare values. -/
structure AlterEnv where
  /-- `coerce_column_value`: the value as the column keeps it, or the message. -/
  coerce : ColumnDef → String → Nat → Except String String
  /-- `value_matches_data_type`. -/
  matchesType : DataType → String → Bool
  /-- `debug_data_type`. -/
  debugType : DataType → String
  /-- `eval_check_expr`. -/
  evalCheck : String → Row → Bool
  /-- `std::from_chars`, when it reads the text to its end. -/
  fromChars : String → Option Int
  coll : Collation
  skipFkChecks : Bool

structure ColumnPosition where
  first : Bool
  after : Option String
deriving DecidableEq, Repr

inductive AlterAction
  | addColumn (column : ColumnDef) (position : Option ColumnPosition)
  | dropColumn (name : String)
  | renameColumn (old new : String)
  | modifyColumn (column : ColumnDef) (position : Option ColumnPosition)
  | renameTable (newName : String)
  /-- The name of `fk` is chosen by the action. -/
  | addForeignKey (name : Option String) (fk : ForeignKey)
  | dropForeignKey (name : String)
  | addUniqueConstraint (name : Option String) (column : String) (columns : List String)
  | addCheckConstraint (name : Option String) (expr : String)
  | dropConstraint (name : String)
  | noOp
  | addIndex (name : Option String) (columns : List String)
  | changeColumn (old : String) (column : ColumnDef) (position : Option ColumnPosition)
  | setAutoIncrement (next : Int)
  | setDefault (column : String) (value : Option String)

abbrev Answer := Db × Except String String

variable {name : String}

namespace Db

def put (db : Db) (name : String) (t : Table) : Db :=
  { db with tables := update db.tables name (some t) }

def putSchema (db : Db) (name : String) (t : Table) (schema : TableSchema) : Db :=
  db.put name { t with schema := schema }

theorem put_self {db : Db} {t : Table} (h : db.tables name = some t) : db.put name t = db := by
  rw [put, ← h, update_eq_self]

theorem put_eq_self_iff {db : Db} {t : Table} : db.put name t = db ↔ db.tables name = some t := by
  constructor
  · intro h
    rw [← h]
    exact update_self ..
  · exact put_self

@[simp] theorem put_tables_self (db : Db) (name : String) (t : Table) :
    (db.put name t).tables name = some t :=
  update_self ..

end Db

/-- `same_name`: two names are one when they differ in case only. -/
def sameName (a b : String) : Bool :=
  a.toList.map Char.toLower == b.toList.map Char.toLower

def TableSchema.find (schema : TableSchema) (name : String) : Option ColumnDef :=
  schema.columns.find? (·.name == name)

def TableSchema.has (schema : TableSchema) (name : String) : Bool :=
  schema.columns.any (·.name == name)

variable {schema : TableSchema}

theorem has_iff : schema.has name ↔ ∃ c ∈ schema.columns, c.name = name := by
  simp [TableSchema.has]

theorem has_iff_find : schema.has name ↔ ∃ c, schema.find name = some c := by
  rw [has_iff, TableSchema.find, ← Option.isSome_iff_exists, List.find?_isSome]
  simp

theorem has_congr {schema' : TableSchema} (name : String)
    (h : schema.columns.map (·.name) = schema'.columns.map (·.name)) :
    schema.has name = schema'.has name := by
  have hany : ∀ s : TableSchema, s.has name = (s.columns.map (·.name)).any (· == name) := by
    intro s
    rw [TableSchema.has, List.any_map]
    rfl
  rw [hany, hany, h]

/-- The columns with `column` put after the first one called `name`. -/
def insertAfter (name : String) (column : ColumnDef) : List ColumnDef → List ColumnDef
  | [] => []
  | c :: cs => if c.name == name then c :: column :: cs else c :: insertAfter name column cs

def unknownAfter (schema : TableSchema) (after : String) : String :=
  "Unknown column '" ++ after ++ "' in '" ++ schema.name ++ "'"

/-- `place_column`: FIRST / AFTER c. -/
def placeColumn (schema : TableSchema) (column : String) (position : ColumnPosition) :
    Except String TableSchema :=
  match schema.find column with
  | none => .error ("Column '" ++ column ++ "' not found")
  | some moving =>
    if position.after = some column then .ok schema
    else if (position.after.any fun after => !schema.has after) then
      .error (unknownAfter schema (position.after.getD ""))
    else
      let others := schema.columns.eraseP (·.name == column)
      if position.first then .ok { schema with columns := moving :: others }
      else match position.after with
        | some after => .ok { schema with columns := insertAfter after moving others }
        | none => .ok { schema with columns := others ++ [moving] }

/-- The position of the statement, when it gives one. -/
def placed (schema : TableSchema) (column : String) (position : Option ColumnPosition) :
    Except String TableSchema :=
  match position with
  | none => .ok schema
  | some p => placeColumn schema column p

def notFound (table : String) : String :=
  "Table '" ++ table ++ "' not found"

/-- ADD COLUMN. -/
def execAddColumn (db : Db) (table : String) (column : ColumnDef)
    (position : Option ColumnPosition) : Answer :=
  match db.tables table with
  | none => (db, .error (notFound table))
  | some t =>
    if t.schema.columns.any (fun c => sameName c.name column.name) then
      (db, .error ("Duplicate column name '" ++ column.name ++ "'"))
    else
      let newCol : ColumnDef :=
        { column with
          primaryKey := false, autoIncrement := false, foreignKeys := [], onUpdateNow := false }
      let grown := { t.schema with columns := t.schema.columns ++ [newCol] }
      match placed grown newCol.name position with
      | .error e =>
        (db.putSchema table t { grown with columns := grown.columns.dropLast }, .error e)
      | .ok schema =>
        let fill := match column.defaultValue with
          | some d => if d = "__NULL_DEFAULT__" then executorNull else d
          | none => executorNull
        (db.put table ⟨schema, t.rows.map fun row => row.set newCol.name fill⟩,
          .ok ("Column '" ++ newCol.name ++ "' added to '" ++ table ++ "'."))

/-- DROP COLUMN. -/
def execDropColumn (db : Db) (table name : String) : Answer :=
  match db.tables table with
  | none => (db, .error (notFound table))
  | some t =>
    if t.schema.has name then
      (db.put table ⟨{ t.schema with columns := t.schema.columns.filter (·.name != name) },
          t.rows.map fun row => row.erase name⟩,
        .ok ("Column '" ++ name ++ "' dropped from '" ++ table ++ "'."))
    else (db, .error ("Can't DROP '" ++ name ++ "'; check that column/key exists"))

/-- `row[to] = row[from]; row.erase(from)`, when the row has the cell. -/
def renameCell (old new : String) (row : Row) : Row :=
  match row.find old with
  | none => row
  | some v => Row.set (row.erase old) new v

def renameDef (old new : String) (d : IndexDef) : IndexDef :=
  { d with columns := d.columns.map fun c => if c == old then new else c }

def renameInIndexes (table old new : String) (defs : List IndexDef) : List IndexDef :=
  defs.map fun d => if d.table == table then renameDef old new d else d

/-- RENAME COLUMN. -/
def execRenameColumn (db : Db) (table old new : String) : Answer :=
  match db.tables table with
  | none => (db, .error (notFound table))
  | some t =>
    if !t.schema.has old then
      (db, .error ("Unknown column '" ++ old ++ "' in '" ++ table ++ "'"))
    else if t.schema.columns.any (fun c => c.name != old && sameName c.name new) then
      (db, .error ("Duplicate column name '" ++ new ++ "'"))
    else
      ({ db.put table
            ⟨{ t.schema with
                columns := t.schema.columns.map fun c =>
                  if c.name == old then { c with name := new } else c },
              t.rows.map (renameCell old new)⟩ with
          indexMeta := renameInIndexes table old new db.indexMeta
          hashIndexMeta := renameInIndexes table old new db.hashIndexMeta
          compositeIndexes := renameInIndexes table old new db.compositeIndexes },
        .ok ("Column '" ++ old ++ "' renamed to '" ++ new ++ "' in '" ++ table ++ "'."))

/-- One value of the column under its new definition. -/
def convertCell (env : AlterEnv) (target column : ColumnDef) (visible : Bool) (rowNumber : Nat)
    (val : String) : Except String String :=
  if val = executorNull then
    if visible && column.notNull then .error "Invalid use of NULL value" else .ok val
  else match env.coerce target val rowNumber with
    | .error e => if visible then .error e else .ok val
    | .ok converted =>
      if visible && !env.matchesType column.dataType converted then
        .error ("Cannot convert value '" ++ converted ++ "' in column '" ++ column.name ++
          "' to " ++ env.debugType column.dataType)
      else .ok converted

/-- The rows with their values converted; `rowNumber` counts the live rows before. -/
def convertRows (env : AlterEnv) (target column : ColumnDef) :
    Nat → List Row → Except String (List Row)
  | _, [] => .ok []
  | rowNumber, row :: rest => do
      let visible := isVisible row
      let number := if visible then rowNumber + 1 else rowNumber
      let converted ← match row.find column.name with
        | none => .ok row
        | some val => (convertCell env target column visible number val).map (row.set column.name)
      let others ← convertRows env target column number rest
      return converted :: others

/-- The definition MODIFY gives a column; PRIMARY KEY, the keys and the CHECK stay. -/
def modifiedDef (column c : ColumnDef) : ColumnDef :=
  { c with
    dataType := column.dataType
    isUnsigned := column.isUnsigned
    notNull := column.notNull
    unique := column.unique || c.unique
    uniqueConstraintName :=
      if column.unique then column.uniqueConstraintName else c.uniqueConstraintName
    autoIncrement := column.autoIncrement
    defaultValue := column.defaultValue }

/-- The first column of the kind with `f` applied to it. -/
def changeFirst (p : ColumnDef → Bool) (f : ColumnDef → ColumnDef) :
    List ColumnDef → List ColumnDef
  | [] => []
  | c :: cs => if p c then f c :: cs else c :: changeFirst p f cs

theorem map_changeFirst {β : Type} {p : ColumnDef → Bool} {f : ColumnDef → ColumnDef}
    {g : ColumnDef → β} (hg : ∀ c, g (f c) = g c) (columns : List ColumnDef) :
    (changeFirst p f columns).map g = columns.map g := by
  induction columns with
  | nil => rfl
  | cons c cs ih =>
    rw [changeFirst]
    split
    · rw [List.map_cons, List.map_cons, hg]
    · rw [List.map_cons, List.map_cons, ih]

/-- MODIFY COLUMN. -/
def execModifyColumn (env : AlterEnv) (db : Db) (table : String) (column : ColumnDef)
    (position : Option ColumnPosition) : Answer :=
  match db.tables table with
  | none => (db, .error (notFound table))
  | some t =>
    match t.schema.find column.name with
    | none => (db, .error ("Column '" ++ column.name ++ "' not found in '" ++ table ++ "'"))
    | some current =>
      let missing := (position.bind (·.after)).any fun after =>
        after != column.name && !t.schema.has after
      if missing then
        (db, .error (unknownAfter t.schema ((position.bind (·.after)).getD "")))
      else
        let target :=
          { current with dataType := column.dataType, isUnsigned := column.isUnsigned }
        match convertRows env target column 0 t.rows with
        | .error e => (db, .error e)
        | .ok rows =>
          let changed : TableSchema :=
            { t.schema with
              columns := changeFirst (·.name == column.name) (modifiedDef column)
                t.schema.columns }
          match placed changed column.name position with
          | .error e => (db.putSchema table t changed, .error e)
          | .ok schema =>
            (db.put table ⟨schema, rows⟩,
              .ok ("Column '" ++ column.name ++ "' in '" ++ table ++ "' modified."))

/-- CHANGE COLUMN: the column is renamed, then given the definition. -/
def execChangeColumn (env : AlterEnv) (db : Db) (table old : String) (column : ColumnDef)
    (position : Option ColumnPosition) : Answer :=
  if (db.tables table).isNone then (db, .error (notFound table))
  else if old = column.name then execModifyColumn env db table column position
  else
    match execRenameColumn db table old column.name with
    | (db', .error e) => (db', .error e)
    | (db', .ok _) => execModifyColumn env db' table column position

/-- `exec_create_index` of an index that is not a hash index. -/
def execCreateIndex (db : Db) (name table : String) (columns : List String) : Answer :=
  if (db.tables table).isNone then (db, .error (notFound table))
  else
    let wanted := table ++ "_" ++ name
    let taken (defs : List IndexDef) : Bool :=
      defs.any fun d => d.table == table && sameName d.key wanted
    if taken db.indexMeta || taken db.hashIndexMeta || taken db.compositeIndexes then
      (db, .error ("Duplicate key name '" ++ name ++ "'"))
    else match columns with
      | [column] =>
        ({ db with indexMeta := db.indexMeta ++ [⟨wanted, table, columns⟩] },
          .ok ("Index '" ++ name ++ "' created on '" ++ table ++ "'.'" ++ column ++ "'."))
      | _ =>
        ({ db with compositeIndexes := db.compositeIndexes ++ [⟨wanted, table, columns⟩] },
          .ok ("Composite index '" ++ name ++ "' created on '" ++ table ++ "' (" ++
            ", ".intercalate columns ++ ")."))

/-- ADD INDEX. -/
def execAddIndex (db : Db) (table : String) (name : Option String) : List String → Answer
  | [] => (db, .error "An index needs at least one column")
  | front :: more => execCreateIndex db (name.getD front) table (front :: more)

/-- ALTER COLUMN c SET DEFAULT v / DROP DEFAULT. -/
def execSetDefault (db : Db) (table column : String) (value : Option String) : Answer :=
  match db.tables table with
  | none => (db, .error (notFound table))
  | some t =>
    if t.schema.has column then
      (db.putSchema table t
          { t.schema with
            columns := changeFirst (·.name == column) (fun c => { c with defaultValue := value })
              t.schema.columns },
        .ok ("Default of column '" ++ column ++ "' in '" ++ table ++ "' changed."))
    else (db, .error ("Unknown column '" ++ column ++ "' in '" ++ table ++ "'"))

/-- AUTO_INCREMENT = n. -/
def execSetAutoIncrement (env : AlterEnv) (db : Db) (table : String) (next : Int) : Answer :=
  match db.tables table with
  | none => (db, .error ("Table '" ++ table ++ "' doesn't exist"))
  | some t =>
    let db' := match t.schema.columns.find? (·.autoIncrement) with
      | none => db
      | some col =>
        let numbers := (t.rows.filter isVisible).filterMap fun row =>
          (row.find col.name).bind env.fromChars
        let largest := numbers.foldl max 0
        db.putSchema table t
          { t.schema with
            autoIncrementCounters := update t.schema.autoIncrementCounters col.name
              (some (max (next - 1) largest)) }
    (db', .ok ("Table '" ++ table ++ "' altered."))

def bareTable (table : String) : String :=
  String.ofList (table.toList.reverse.takeWhile (· != '.')).reverse

/-- `fk_auto_number`: n of `<bare>_ibfk_<n>`, 0 for any other name. -/
def fkAutoNumber (name bare : String) : Nat :=
  let chars := name.toList
  let n := bare.toList.length
  let digits := chars.drop (n + 6)
  if chars.length ≤ n + 6 then 0
  else if (chars.take n).map Char.toLower ≠ bare.toList.map Char.toLower then 0
  else if (chars.drop n).take 6 ≠ "_ibfk_".toList then 0
  else if 9 < digits.length ∨ digits.all Char.isDigit = false then 0
  else digits.foldl (fun v c => v * 10 + (c.toNat - '0'.toNat)) 0

/-- The key with the name that it is reported under, being the `n`th of its table. -/
def namedKey (bare : String) (n : Nat) (fk : ForeignKey) : ForeignKey :=
  if fk.name = "" then { fk with name := bare ++ "_ibfk_" ++ stdToString n } else fk

/-- `fk_materialize_names`; `n` counts the keys of the columns before. -/
def fkMaterializeNames (bare : String) : Nat → List ColumnDef → List ColumnDef
  | _, [] => []
  | n, c :: cs =>
    { c with foreignKeys := c.foreignKeys.mapIdx fun k fk => namedKey bare (n + k + 1) fk } ::
      fkMaterializeNames bare (n + c.foreignKeys.length) cs

/-- `fk_next_name`, on columns whose keys have their names. -/
def fkNextName (bare : String) (columns : List ColumnDef) : String :=
  let numbers := columns.flatMap fun c => c.foreignKeys.map fun fk => fkAutoNumber fk.name bare
  bare ++ "_ibfk_" ++ stdToString (numbers.foldl max 0 + 1)

def fkRenameTable (oldBare newBare : String) (columns : List ColumnDef) : List ColumnDef :=
  (fkMaterializeNames oldBare 0 columns).map fun c =>
    { c with
      foreignKeys := c.foreignKeys.map fun fk =>
        if fkAutoNumber fk.name oldBare ≠ 0 then
          { fk with name := newBare ++ "_ibfk_" ++ stdToString (fkAutoNumber fk.name oldBare) }
        else fk }

/-- The index definitions of the table under its new name; a definition whose new key is taken
by then is lost. -/
def moveIndexes (table newName : String) (defs : List IndexDef) : List IndexDef :=
  (defs.filter (·.table == table)).foldl (fun ds d =>
    let others := ds.erase d
    let moved : IndexDef :=
      { d with
        key := newName ++ String.ofList (d.key.toList.drop table.toList.length), table := newName }
    if others.any (·.key == moved.key) then others else others ++ [moved]) defs

/-- The foreign keys that refer to the table follow it to the new name. -/
def followTable (table newName : String) (t : Table) : Table :=
  { t with
    schema :=
      { t.schema with
        columns := t.schema.columns.map fun c =>
          { c with
            foreignKeys := c.foreignKeys.map fun fk =>
              if sameName fk.refTable table then { fk with refTable := newName } else fk } } }

/-- RENAME TO. -/
def execRenameTable (db : Db) (table newName : String) : Answer :=
  match db.tables table with
  | none => (db, .error (notFound table))
  | some t =>
    if (db.tables newName).isSome then
      (db, .error ("Table '" ++ newName ++ "' already exists"))
    else
      let moved := { t with schema := { t.schema with name := newName } }
      let tables := update (update db.tables table none) newName (some moved)
      let followed := fun name => (tables name).map (followTable table newName)
      let own := followTable table newName moved
      ({ tables := update followed newName
            (some { own with
              schema :=
                { own.schema with
                  columns := fkRenameTable (bareTable table) (bareTable newName)
                    own.schema.columns } })
         indexMeta := moveIndexes table newName db.indexMeta
         hashIndexMeta := moveIndexes table newName db.hashIndexMeta
         compositeIndexes := moveIndexes table newName db.compositeIndexes },
        .ok ("Table '" ++ table ++ "' renamed to '" ++ newName ++ "'."))

/-- The rows of the tables, as `fk_child_violation` reads them. -/
def Db.parents (db : Db) (coll : Collation) : CascadeDb where
  catalog := []
  tables := fun name => (db.tables name).map (·.rows)
  coll := coll
  absent := fun _ _ _ => false

/-- The parent under its database: an unqualified name is in the database of the table. -/
def qualifiedParent (table refTable : String) : String :=
  if !refTable.toList.contains '.' && table.toList.contains '.' then
    String.ofList (table.toList.takeWhile (· != '.')) ++ "." ++ refTable
  else refTable

/-- The first live row whose value in the column has no parent. -/
def orphan (env : AlterEnv) (db : Db) (fk : ForeignKey) (column : String) (rows : List Row) :
    Option String :=
  (rows.filter isVisible).findSome? fun row =>
    (row.find column).bind ((db.parents env.coll).fkChildViolation fk.refTable fk.refColumn)

/-- ADD FOREIGN KEY. -/
def execAddForeignKey (env : AlterEnv) (db : Db) (table : String) (name : Option String)
    (fk : ForeignKey) : Answer :=
  match db.tables table with
  | none => (db, .error (notFound table))
  | some t =>
    if !t.schema.has fk.column then
      (db, .error ("Column '" ++ fk.column ++ "' not found in '" ++ table ++ "'"))
    else
      let given := name.getD ""
      if given ≠ "" ∧ t.schema.columns.any (fun c =>
          c.foreignKeys.any fun other => sameName other.name given) then
        (db, .error ("Duplicate foreign key constraint name '" ++ given ++ "'"))
      else
        let columns := if given = "" then fkMaterializeNames (bareTable table) 0 t.schema.columns
          else t.schema.columns
        let chosen := if given = "" then fkNextName (bareTable table) columns else given
        let key := { fk with name := chosen, refTable := qualifiedParent table fk.refTable }
        match if env.skipFkChecks then none else orphan env db key fk.column t.rows with
        | some e => (db.putSchema table t { t.schema with columns := columns }, .error e)
        | none =>
          (db.putSchema table t
              { t.schema with
                columns := changeFirst (·.name == fk.column)
                  (fun c => { c with foreignKeys := c.foreignKeys ++ [key] }) columns },
            .ok ("Foreign key '" ++ name.getD ("fk_" ++ fk.column) ++ "' added to '" ++ table ++
              "'."))

/-- A key is named by its name, its column or `fk_<column>`. -/
def namesKey (name : String) (fk : ForeignKey) : Bool :=
  sameName fk.name name || fk.column == name || ("fk_" ++ fk.column) == name

/-- The columns without the first foreign key of the name. -/
def dropFirstKey (name : String) : List ColumnDef → Option (List ColumnDef)
  | [] => none
  | c :: cs =>
    if c.foreignKeys.any (namesKey name) then
      some ({ c with foreignKeys := c.foreignKeys.eraseP (namesKey name) } :: cs)
    else (dropFirstKey name cs).map (c :: ·)

/-- DROP FOREIGN KEY. -/
def execDropForeignKey (db : Db) (table name : String) : Answer :=
  match db.tables table with
  | none => (db, .error (notFound table))
  | some t =>
    let named := fkMaterializeNames (bareTable table) 0 t.schema.columns
    match dropFirstKey name named with
    | none =>
      (db.putSchema table t { t.schema with columns := named },
        .error ("Foreign key '" ++ name ++ "' not found in '" ++ table ++ "'"))
    | some columns =>
      (db.putSchema table t { t.schema with columns := columns },
        .ok ("Foreign key '" ++ name ++ "' dropped from '" ++ table ++ "'."))

def keyValues (columns : List String) (row : Row) : List String :=
  columns.map fun c => (row.find c).getD executorNull

/-- The key of a row as ADD UNIQUE encodes it; a NULL in it repeats nothing. -/
def uniqueKeyOf (coll : Collation) (columns : List String) (row : Row) : Option String :=
  if (keyValues columns row).contains executorNull then none
  else some (LengthPrefix.encode ((keyValues columns row).map coll.key))

def repeatedKey (env : AlterEnv) (name : Option String) (columns : List String)
    (rows : List Row) : Option String :=
  (firstRepeat (uniqueKeyOf env.coll columns) [] (liveVersions rows)).map fun row =>
    "Duplicate entry '" ++ "-".intercalate (keyValues columns row) ++ "' for key '" ++
      name.getD (columns.headD "") ++ "'"

/-- ADD UNIQUE over several columns. -/
def execAddUniqueKey (env : AlterEnv) (db : Db) (table : String) (t : Table)
    (name : Option String) (columns : List String) : Answer :=
  match columns.find? fun c => !t.schema.has c with
  | some c => (db, .error ("Key column '" ++ c ++ "' doesn't exist in table"))
  | none =>
    match repeatedKey env name columns t.rows with
    | some e => (db, .error e)
    | none =>
      (db.putSchema table t
          { t.schema with uniqueKeys := t.schema.uniqueKeys ++ [⟨name, columns⟩] },
        .ok ("Unique constraint '" ++ name.getD (columns.headD "") ++ "' added to '" ++
          table ++ "'."))

/-- ADD UNIQUE of one column. -/
def execAddUniqueColumn (env : AlterEnv) (db : Db) (table : String) (t : Table)
    (name : Option String) (column : String) : Answer :=
  if !t.schema.has column then
    (db, .error ("Column '" ++ column ++ "' not found in '" ++ table ++ "'"))
  else match repeatedKey env name [column] t.rows with
    | some e => (db, .error e)
    | none =>
      (db.putSchema table t
          { t.schema with
            columns := changeFirst (·.name == column)
              (fun c => { c with unique := true, uniqueConstraintName := name })
              t.schema.columns },
        .ok ("Unique constraint '" ++ name.getD ("uq_" ++ column) ++ "' added to '" ++ table ++
          "'.'" ++ column ++ "'."))

def execAddUnique (env : AlterEnv) (db : Db) (table : String) (name : Option String)
    (column : String) (columns : List String) : Answer :=
  match db.tables table with
  | none => (db, .error (notFound table))
  | some t =>
    if 1 < columns.length then execAddUniqueKey env db table t name columns
    else execAddUniqueColumn env db table t name column

/-- ADD CHECK. -/
def execAddCheck (env : AlterEnv) (db : Db) (table : String) (name : Option String)
    (expr : String) : Answer :=
  match db.tables table with
  | none => (db, .error (notFound table))
  | some t =>
    if (liveVersions t.rows).all (env.evalCheck expr) then
      (db.putSchema table t
          { t.schema with checkConstraints := t.schema.checkConstraints ++ [⟨name, expr⟩] },
        .ok ("Check constraint '" ++ name.getD expr ++ "' added to '" ++ table ++ "'."))
    else (db, .error ("CHECK constraint '" ++ name.getD expr ++ "' violated"))

/-- The key of an index ends in `_<name>`, in any letter case. -/
def hasSuffix (name : String) (d : IndexDef) : Bool :=
  let suffix := ("_" ++ name).toList.map Char.toLower
  suffix.isSuffixOf (d.key.toList.map Char.toLower)

/-- `exec_drop_index` without a table: the first index whose key ends in the name. -/
def execDropIndex (db : Db) (name : String) : Db × String :=
  if db.indexMeta.any (hasSuffix name) then
    ({ db with indexMeta := db.indexMeta.eraseP (hasSuffix name) },
      "Index '" ++ name ++ "' dropped.")
  else if db.hashIndexMeta.any (hasSuffix name) then
    ({ db with hashIndexMeta := db.hashIndexMeta.eraseP (hasSuffix name) },
      "Hash index '" ++ name ++ "' dropped.")
  else if db.compositeIndexes.any (hasSuffix name) then
    ({ db with compositeIndexes := db.compositeIndexes.eraseP (hasSuffix name) },
      "Composite index '" ++ name ++ "' dropped.")
  else (db, "Index '" ++ name ++ "' does not exist, skipped.")

/-- `find(" dropped.") != npos`. -/
def saysDropped (message : String) : Bool :=
  message.toList.tails.any fun tail => " dropped.".toList.isPrefixOf tail

/-- DROP CONSTRAINT / DROP INDEX: a CHECK, a UNIQUE key, a UNIQUE column or an index of the
name. -/
def execDropConstraint (db : Db) (table name : String) : Answer :=
  match db.tables table with
  | none => (db, .error (notFound table))
  | some t =>
    let dropped := "Constraint '" ++ name ++ "' dropped from '" ++ table ++ "'."
    let isCheck (c : CheckConstraint) : Bool := c.name == some name || c.expression == name
    let isKey (k : UniqueKey) : Bool := k.name == some name
    let isColumn (c : ColumnDef) : Bool := c.uniqueConstraintName == some name
    if t.schema.checkConstraints.any isCheck then
      (db.putSchema table t
          { t.schema with
            checkConstraints := t.schema.checkConstraints.filter fun c => !isCheck c },
        .ok dropped)
    else if t.schema.uniqueKeys.any isKey then
      (db.putSchema table t
          { t.schema with uniqueKeys := t.schema.uniqueKeys.filter fun k => !isKey k },
        .ok dropped)
    else if t.schema.columns.any isColumn then
      (db.putSchema table t
          { t.schema with
            columns := changeFirst isColumn
              (fun c => { c with unique := false, uniqueConstraintName := none })
              t.schema.columns },
        .ok dropped)
    else if saysDropped (execDropIndex db name).2 then
      ((execDropIndex db name).1, .ok (execDropIndex db name).2)
    else
      ((execDropIndex db name).1,
        .error ("Constraint '" ++ name ++ "' not found in '" ++ table ++ "'"))

def isPartitioned (db : Db) (table : String) : Bool :=
  (db.tables table).any (·.schema.partitioned)

def execAlter (env : AlterEnv) (db : Db) (table : String) (action : AlterAction) : Answer :=
  if isPartitioned db table then
    (db, .error
      "ALTER TABLE only supports ADD PARTITION/DROP PARTITION on a partitioned table in this version")
  else match action with
    | .noOp =>
      if (db.tables table).isNone then
        (db, .error ("Table '" ++ table ++ "' doesn't exist"))
      else (db, .ok ("Table '" ++ table ++ "' altered."))
    | .setAutoIncrement next => execSetAutoIncrement env db table next
    | .addColumn column position => execAddColumn db table column position
    | .dropColumn name => execDropColumn db table name
    | .renameColumn old new => execRenameColumn db table old new
    | .modifyColumn column position => execModifyColumn env db table column position
    | .changeColumn old column position => execChangeColumn env db table old column position
    | .addIndex name columns => execAddIndex db table name columns
    | .setDefault column value => execSetDefault db table column value
    | .renameTable newName => execRenameTable db table newName
    | .addForeignKey name fk => execAddForeignKey env db table name fk
    | .dropForeignKey name => execDropForeignKey db table name
    | .addUniqueConstraint name column columns => execAddUnique env db table name column columns
    | .addCheckConstraint name expr => execAddCheck env db table name expr
    | .dropConstraint name => execDropConstraint db table name

/-- `*find(name) = to`. -/
def replaceName (name new : String) : List String → List String
  | [] => []
  | c :: cs => if sameName c name then new :: cs else c :: replaceName name new cs

def hasName (columns : List String) (name : String) : Bool :=
  columns.any fun c => sameName c name

def missingAfter (columns : List String) (position : Option ColumnPosition) : Bool :=
  (position.bind (·.after)).any fun after => !hasName columns after

def afterOf (position : Option ColumnPosition) : String :=
  (position.bind (·.after)).getD ""

/-- What `alter_actions_error` follows of one action: the names of the columns after it, or the
message. -/
def followNames (schema : TableSchema) (table : String) (original columns : List String) :
    AlterAction → Except String (List String)
  | .addColumn column position =>
    if hasName columns column.name then
      .error ("Duplicate column name '" ++ column.name ++ "'")
    else if missingAfter columns position then .error (unknownAfter schema (afterOf position))
    else .ok (columns ++ [column.name])
  | .dropColumn name =>
    if hasName columns name && hasName original name then
      .ok (columns.eraseP fun c => sameName c name)
    else .error ("Can't DROP '" ++ name ++ "'; check that column/key exists")
  | .renameColumn old new =>
    if !(hasName columns old && hasName original old) then
      .error ("Unknown column '" ++ old ++ "' in '" ++ table ++ "'")
    else if !sameName old new && hasName columns new then
      .error ("Duplicate column name '" ++ new ++ "'")
    else .ok (replaceName old new columns)
  | .changeColumn old column position =>
    if !(hasName columns old && hasName original old) then
      .error ("Unknown column '" ++ old ++ "' in '" ++ table ++ "'")
    else if !sameName old column.name && hasName columns column.name then
      .error ("Duplicate column name '" ++ column.name ++ "'")
    else if missingAfter columns position then .error (unknownAfter schema (afterOf position))
    else .ok (replaceName old column.name columns)
  | .modifyColumn column position =>
    if !(hasName columns column.name && hasName original column.name) then
      .error ("Column '" ++ column.name ++ "' not found in '" ++ table ++ "'")
    else if missingAfter columns position then .error (unknownAfter schema (afterOf position))
    else .ok columns
  | .setDefault column _ =>
    if hasName columns column && hasName original column then .ok columns
    else .error ("Unknown column '" ++ column ++ "' in '" ++ table ++ "'")
  | .addIndex _ keyColumns =>
    match keyColumns.find? fun c => !hasName columns c with
    | some c => .error ("Key column '" ++ c ++ "' doesn't exist in table")
    | none => .ok columns
  | _ => .ok columns

/-- `alter_actions_error`: the message, and none for the empty text. -/
def alterActionsError (schema : TableSchema) (table : String) (actions : List AlterAction) :
    Option String :=
  let original := schema.columns.map (·.name)
  match actions.foldlM (followNames schema table original) original with
  | .ok _ => none
  | .error e => some e

/-- One action of the list, on the table as it is called by then. -/
def alterStep (env : AlterEnv) (state : Db × String) (action : AlterAction) :
    (Db × String) × Except String String :=
  let out := execAlter env state.1 state.2 action
  let name := match action, out.2 with
    | .renameTable newName, .ok _ => newName
    | _, _ => state.2
  ((out.1, name), out.2)

/-- The actions one after the other, up to the first error. -/
def runActions (env : AlterEnv) (db : Db) (table : String) (actions : List AlterAction) : Answer :=
  let out := Parts.run (alterStep env) (db, table) (.ok "") actions
  (out.1.1, out.2)

/-- ALTER TABLE: with several actions, after `alter_actions_error`. -/
def execAlterTable (env : AlterEnv) (db : Db) (table : String) (action : AlterAction)
    (more : List AlterAction) : Answer :=
  let predicted := if more.isEmpty then none
    else (db.tables table).bind fun t => alterActionsError t.schema table (action :: more)
  match predicted with
  | some e => (db, .error e)
  | none => runActions env db table (action :: more)

/-- RENAME TABLE a TO b, c TO d. -/
def execRenameTables (env : AlterEnv) (db : Db) (pairs : List (String × String)) : Answer :=
  Parts.run (fun db pair => execAlter env db pair.1 (.renameTable pair.2)) db (.ok "") pairs

end RusqlEngine.Ddl
