import RusqlEngine.Library.ExceptFold
import RusqlEngine.UniqueCheck

/-!
# INSERT and its keys

`exec_insert` in its four forms, run alone. The rows are checked, those that pass are appended
together, and what ON DUPLICATE KEY UPDATE changes is changed afterwards. Parameters stand for what
the values of a row become, for the CHECK and FOREIGN KEY conditions, the evaluation of expressions
and the look-up of one column.
-/

namespace RusqlEngine

/-- `col = expression`; the expression reads the row that was to be inserted (`VALUES(col)`)
and the row that it changes. -/
abbrev Assignments := List (String × (Row → Row → String))

inductive InsertConflict
  | abort
  | ignore
  | replace
  | update (assignments : Assignments)

def InsertConflict.isReplace : InsertConflict → Bool
  | .replace => true
  | _ => false

def InsertConflict.isIgnore : InsertConflict → Bool
  | .ignore => true
  | _ => false

/-- What an INSERT on one table uses of the engine. `fill` gives the row that a row of the
statement, by its number, stands for, in the validating pass or in the real one. -/
structure InsertEnv where
  coll : Collation
  schema : TableSchema
  holder : List Row → String → String → Option Row
  fill : Bool → Nat → Row → Except KeyError Row
  rowCheck : List Row → Row → Option KeyError
  coerce : String → String → Except KeyError String
  whereEq : Row → String → String → Bool
  rewriteRow : Assignments → Row → Row → Except KeyError Row
  orders : List Row → List (List Nat)
  deleteRefused : List Row → List Row → Option KeyError
  inTxn : Bool
  tagId : Nat
  tagId_ne_zero : tagId ≠ 0

/-- A row of the table that has a key of the new row, and the error that says so. -/
structure Hit where
  existing : Row
  error : KeyError

/-- What validation has made of the rows so far. -/
structure Prep where
  prepared : List Row := []
  seenUnique : List ((String × String) × Nat) := []
  seenCompositePk : List String := []
  batch : List (Nat × String) := []
  rowsRecorded : Nat := 0
  pending : List (Row × Row) := []
  victims : List Row := []

inductive Verdict
  | error (e : KeyError)
  | skip (hit : Option Row)
  | go (victims : List Row)

namespace InsertEnv

def pkSpec (env : InsertEnv) : KeySpec :=
  ⟨env.schema.primaryKeyColumns, false⟩

def constrained (env : InsertEnv) : List ColumnDef :=
  env.schema.columns.filter fun col => col.primaryKey || col.unique

def nullSkipped (col : ColumnDef) (row : Row) : Bool :=
  !col.primaryKey && cell row col.name == executorNull

def columnHits (env : InsertEnv) (rows : List Row) (row : Row) : List Hit :=
  env.constrained.filterMap fun col =>
    if nullSkipped col row then none
    else (env.holder rows col.name (cell row col.name)).map fun existing =>
      ⟨existing, .duplicateValue (cell row col.name) col.name⟩

def compositePkHits (env : InsertEnv) (rows : List Row) (row : Row) : List Hit :=
  (((liveVersions rows).find? fun existing =>
      encodedKey env.coll env.pkSpec existing == encodedKey env.coll env.pkSpec row).map
    fun existing =>
      (⟨existing, .duplicateCompositePk (env.schema.primaryKeyColumns.map (cell row))⟩ :
        Hit)).toList

def uniqueKeyHits (env : InsertEnv) (rows : List Row) (row : Row) : List Hit :=
  env.schema.uniqueKeySpecs.filterMap fun spec =>
    (encodedKey env.coll spec row).bind fun code =>
      ((liveVersions rows).find? fun existing => encodedKey env.coll spec existing == some code).map
        fun existing => ⟨existing, .duplicateEntry (shownKey spec row) spec⟩

/-- The rows of the table that have a key of the new row, in the order of the search. A composite
primary key keeps the UNIQUE columns from being searched. -/
def tableHits (env : InsertEnv) (rows : List Row) (row : Row) : List Hit :=
  (if env.schema.isCompositePk then env.compositePkHits rows row else env.columnHits rows row) ++
    env.uniqueKeyHits rows row

/-- What the form of the statement makes of the rows that are hit. -/
def verdict (form : InsertConflict) (hits : List Hit) : Verdict :=
  match form, hits with
  | .replace, hits => .go (hits.map (·.existing))
  | _, [] => .go []
  | .abort, hit :: _ => .error hit.error
  | .ignore, _ :: _ => .skip none
  | .update _, hit :: _ => .skip (some hit.existing)

/-- The UNIQUE keys over several columns, among the rows of the statement. -/
def useBatchKeys (env : InsertEnv) (lenient : Bool) (row : Row) :
    List (KeySpec × Nat) → List (Nat × String) → List (Nat × String) × Option KeyError
  | [], batch => (batch, none)
  | (spec, k) :: keys, batch =>
    match encodedKey env.coll spec row with
    | none => env.useBatchKeys lenient row keys batch
    | some code =>
      if (k, code) ∈ batch then
        if lenient then env.useBatchKeys lenient row keys batch
        else (batch, some (.duplicateEntry (shownKey spec row) spec))
      else env.useBatchKeys lenient row keys ((k, code) :: batch)

/-- The values that `seen_unique_first` records for a row. -/
def uniqueCells (env : InsertEnv) (row : Row) : List (String × String) :=
  env.constrained.filterMap fun col =>
    if nullSkipped col row then none
    else some (col.name, env.coll.key (cell row col.name))

/-- The earliest row of the statement with a PRIMARY KEY or UNIQUE value of this one, and the
first such column. -/
def earliestRepeat (env : InsertEnv) (seen : List ((String × String) × Nat)) (row : Row) :
    Option (String × Nat) :=
  let found := env.constrained.filterMap fun col =>
    (seen.find? fun e => e.1 == (col.name, env.coll.key (cell row col.name))).map fun e =>
      (col.name, e.2)
  found.foldl (fun best hit =>
    match best with
    | none => some hit
    | some b => if hit.2 < b.2 then some hit else some b) none

/-- The conversion to the type of a column that the table has. -/
def coerceValue (env : InsertEnv) (column value : String) : Except KeyError String :=
  if column ∈ env.schema.columns.map (·.name) then env.coerce column value else .ok value

/-- ON DUPLICATE KEY UPDATE of a row that is about to be inserted. -/
def assignInPlace (env : InsertEnv) (values : Row) : Assignments → Row → Except KeyError Row
  | [], target => .ok target
  | (column, expr) :: rest, target =>
    match env.coerceValue column (expr values target) with
    | .error e => .error e
    | .ok value => env.assignInPlace values rest (target.set column value)

/-- The conditions of the row itself, and its place among the prepared rows. -/
def finishRow (env : InsertEnv) (row : Row) (prep : Prep) : Except KeyError Prep :=
  match env.rowCheck prep.prepared (row.tag env.tagId) with
  | some e => .error e
  | none => .ok { prep with prepared := prep.prepared ++ [row.tag env.tagId] }

/-- PRIMARY KEY and UNIQUE columns, among the rows of the statement. -/
def repeatsEarlierRow (env : InsertEnv) (form : InsertConflict) (validateOnly : Bool) (row : Row)
    (prep : Prep) : Except KeyError Prep :=
  let lenient := validateOnly && form.isReplace
  if env.schema.isCompositePk then
    let code := LengthPrefix.encode (env.schema.primaryKeyColumns.map fun col =>
      env.coll.key (cell row col))
    if code ∈ prep.seenCompositePk ∧ lenient = false then
      if form.isIgnore then .ok prep
      else .error (.duplicateCompositePk (env.schema.primaryKeyColumns.map (cell row)))
    else env.finishRow row { prep with seenCompositePk := code :: prep.seenCompositePk }
  else
    let recorded :=
      { prep with
        seenUnique := prep.seenUnique ++ (env.uniqueCells row).map fun e => (e, prep.rowsRecorded)
        rowsRecorded := prep.rowsRecorded + 1 }
    match env.earliestRepeat prep.seenUnique row with
    | none => env.finishRow row recorded
    | some (col, best) =>
      if lenient then env.finishRow row recorded
      else match form with
        | .ignore => .ok prep
        | .update assignments =>
          if best < prep.prepared.length ∧ validateOnly = false then
            match env.assignInPlace row assignments (prep.prepared.getD best ∅) with
            | .error e => .error e
            | .ok target => .ok { prep with prepared := prep.prepared.set best target }
          else .error (.duplicateValue (cell row col) col)
        | _ => .error (.duplicateValue (cell row col) col)

/-- One row of the statement. -/
def insertRow (env : InsertEnv) (rows : List Row) (form : InsertConflict) (validateOnly : Bool)
    (row : Row) (prep : Prep) : Except KeyError Prep :=
  match verdict form (env.tableHits rows row) with
  | .error e => .error e
  | .skip none => .ok prep
  | .skip (some existing) => .ok { prep with pending := prep.pending ++ [(existing, row)] }
  | .go victims =>
    match env.useBatchKeys (validateOnly && form.isReplace) row
        env.schema.uniqueKeySpecs.zipIdx prep.batch with
    | (batch, some e) => if form.isIgnore then .ok { prep with batch := batch } else .error e
    | (batch, none) =>
      env.repeatsEarlierRow form validateOnly row
        { prep with batch := batch, victims := prep.victims ++ victims }

/-- The loop over the rows of the statement. -/
def prepareRows (env : InsertEnv) (rows : List Row) (form : InsertConflict) (validateOnly : Bool) :
    Nat → List Row → Prep → Except KeyError Prep
  | _, [], prep => .ok prep
  | rowNo, written :: rest, prep =>
    match env.fill validateOnly rowNo written with
    | .error e => .error e
    | .ok row =>
      match env.insertRow rows form validateOnly row prep with
      | .error e => .error e
      | .ok prep => env.prepareRows rows form validateOnly (rowNo + 1) rest prep

def idCols (env : InsertEnv) : List String :=
  if env.schema.isCompositePk then env.schema.primaryKeyColumns else [keyCol env.schema]

/-- An UPDATE statement, for the rows that its condition selects. -/
def execUpdate (env : InsertEnv) (rows : List Row) (selects : Row → Bool)
    (newVersion : Row → Except KeyError Row) : Except KeyError (List Row) :=
  let chosen := fun pos => (rows[pos]?).any fun row => isVisible row && selects row
  let olds := rowsAt rows chosen
  match olds.mapM newVersion with
  | .error e => .error e
  | .ok news =>
    match updateUniqueViolation env.coll (env.holder rows) env.schema (env.orders olds) olds news
        (liveVersions (rowsAt rows fun pos => !chosen pos)) with
    | some e => .error e
    | none => .ok (rewriteVersions rows chosen env.tagId news)

/-- The updates that the rows of the statement have asked for. -/
def runPending (env : InsertEnv) (assignments : Assignments) :
    List (Row × Row) → List Row → Except KeyError (List Row)
  | [], rows => .ok rows
  | (existing, values) :: pending, rows =>
    match env.execUpdate rows
        (fun row => env.idCols.all fun col => env.whereEq row col (cell existing col))
        (env.rewriteRow assignments values) with
    | .error e => .error e
    | .ok rows => env.runPending assignments pending rows

/-- `exec_insert_inner`, when it writes. -/
def execInsertInner (env : InsertEnv) (rows : List Row) (form : InsertConflict)
    (written : List Row) : Except KeyError (List Row) :=
  match env.prepareRows rows form false 1 written {} with
  | .error e => .error e
  | .ok prep =>
    match form with
    | .update assignments => env.runPending assignments prep.pending (rows ++ prep.prepared)
    | _ => .ok (rows ++ prep.prepared)

def statedValue (written : Row) (col : String) : Option String :=
  (written.find col).filter (· ≠ executorNull)

/-- `col = value` for each column, where every one of them is stated. -/
def statedCond (written : Row) (cols : List String) : Option (List (String × String)) :=
  cols.mapM fun col => (statedValue written col).map fun value => (col, value)

/-- The conditions of the DELETE statements that REPLACE runs for a row. -/
def conflictConds (env : InsertEnv) (written : Row) : List (List (String × String)) :=
  let composite := env.schema.isCompositePk
  (env.schema.columns.filter fun col => (col.primaryKey && !composite) || col.unique).filterMap
      (fun col => statedCond written [col.name]) ++
    (if composite then (statedCond written env.schema.primaryKeyColumns).toList else []) ++
    env.schema.uniqueKeys.filterMap fun key => statedCond written key.columns

/-- A DELETE outside of other transactions: the rows go, or are ended by the transaction that the
statement belongs to. -/
def deleteWhere (env : InsertEnv) (rows : List Row) (cond : List (String × String)) :
    Except KeyError (List Row) :=
  let hit := fun row => isVisible row && cond.all fun e => env.whereEq row e.1 e.2
  match env.deleteRefused rows (rows.filter hit) with
  | some e => .error e
  | none =>
    if env.inTxn then
      .ok (rows.map fun row =>
        if hit row then row.set "_xmax" (stdToString env.tagId) else row)
    else .ok (rows.filter fun row => !hit row)

def deleteAll (env : InsertEnv) : List (List (String × String)) → List Row →
    Except KeyError (List Row)
  | [], rows => .ok rows
  | cond :: conds, rows =>
    match env.deleteWhere rows cond with
    | .error e => .error e
    | .ok rows => env.deleteAll conds rows

def replaceDeleteConflicts (env : InsertEnv) (written : List Row) (rows : List Row) :
    Except KeyError (List Row) :=
  env.deleteAll (written.flatMap env.conflictConds) rows

/-- The lambda `keys_of` of `replace_supersede`. -/
def statedKeys (env : InsertEnv) (written : Row) : List String :=
  let composite := env.schema.isCompositePk
  let tuple := fun (start : String) (cols : List String) =>
    (statedCond written cols).map fun cond =>
      start ++ String.join (cond.map fun e => "\x1f" ++ env.coll.key e.2)
  (env.schema.columns.filter fun col => (col.primaryKey && !composite) || col.unique).filterMap
      (fun col => tuple col.name [col.name]) ++
    (if composite then (tuple "\x1epk" env.schema.primaryKeyColumns).toList else []) ++
    env.schema.uniqueKeys.zipIdx.filterMap fun key =>
      tuple ("\x1eu" ++ stdToString key.2) key.1.columns

/-- `replace_supersede`: a row that a later row of the statement replaces is left out. -/
def replaceSupersede (env : InsertEnv) (written : List Row) : List Row :=
  (written.foldr (fun row (kept, later) =>
    let keys := env.statedKeys row
    if keys.any later.contains then (kept, later) else (row :: kept, keys ++ later))
    (([], []) : List Row × List String)).1

def execInsert (env : InsertEnv) (rows : List Row) (form : InsertConflict) (written : List Row) :
    Except KeyError (List Row) :=
  match form with
  | .replace =>
    match env.prepareRows rows .replace true 1 written {} with
    | .error e => .error e
    | .ok prep =>
      match if prep.victims = [] then none else env.deleteRefused rows prep.victims with
      | some e => .error e
      | none =>
        match env.replaceDeleteConflicts written rows with
        | .error e => .error e
        | .ok rows => env.execInsertInner rows .abort (env.replaceSupersede written)
  | form => env.execInsertInner rows form written

/-- The rows that the statement stands for in its real pass, from the one with a number. -/
def filled (env : InsertEnv) : Nat → List Row → List Row
  | _, [] => []
  | rowNo, written :: rest =>
    match env.fill false rowNo written with
    | .error _ => env.filled (rowNo + 1) rest
    | .ok row => row :: env.filled (rowNo + 1) rest

/-- The rows that have no key of a row of the table. -/
def unhit (env : InsertEnv) (rows news : List Row) : List Row :=
  news.filter fun row => (env.tableHits rows row).isEmpty

/-- The primary key, as `seen_composite_pk` records it. -/
def pkCode (env : InsertEnv) (row : Row) : String :=
  LengthPrefix.encode (env.schema.primaryKeyColumns.map fun col => env.coll.key (cell row col))

/-- No row before this one has a key of it, of those over several columns and the primary key. -/
def keysNew (env : InsertEnv) (batch : List (Nat × String)) (seenPk : List String) (row : Row) :
    Bool :=
  (env.useBatchKeys false row env.schema.uniqueKeySpecs.zipIdx batch).2.isNone &&
    !seenPk.contains (env.pkCode row)

/-- The rows whose keys are new when they come; of another row, the keys before the repeated one
count as met. -/
def entering (env : InsertEnv) : List (Nat × String) → List String → List Row → List Row
  | _, _, [] => []
  | batch, seenPk, row :: rest =>
    let met := (env.useBatchKeys false row env.schema.uniqueKeySpecs.zipIdx batch).1
    if env.keysNew batch seenPk row then row :: env.entering met (env.pkCode row :: seenPk) rest
    else env.entering met seenPk rest

def KeepsKeyColumns (env : InsertEnv) (assignments : Assignments) : Prop :=
  ∀ a ∈ assignments, ∀ spec ∈ env.schema.keySpecs, a.1 ∉ spec.columns

/-- The later row has no PRIMARY KEY or UNIQUE value of the earlier one. -/
def CellsApart (env : InsertEnv) (row later : Row) : Prop :=
  ∀ e ∈ env.uniqueCells row, ∀ col ∈ env.constrained,
    e ≠ (col.name, env.coll.key (cell later col.name))

/-- When the rows of a statement leave every key unique: no UNIQUE column repeats a value under a
composite primary key, an UPDATE leaves such a column alone if it is part of the key, and no row is
changed in place in a column of a key. -/
structure RowsGuarded (env : InsertEnv) (rows : List Row) (form : InsertConflict)
    (written : List Row) : Prop where
  uniqueUnderComposite : env.schema.isCompositePk → ∀ spec ∈ env.schema.uniqueColumnSpecs,
    ((liveVersions rows ++ env.entering [] [] (env.unhit rows (env.filled 1 written))).filterMap
      (rowKey env.coll spec)).Nodup
  updates : ∀ assignments, form = .update assignments →
    (∀ row ∈ env.filled 1 written, env.tableHits rows row = []) ∨
      ∀ values old new, env.rewriteRow assignments values old = .ok new →
        env.schema.KeepsUnchecked env.coll old new
  inPlace : ∀ assignments, form = .update assignments → env.schema.isCompositePk = false →
    env.KeepsKeyColumns assignments ∨
      (env.unhit rows (env.filled 1 written)).Pairwise env.CellsApart

/-- When the forms of INSERT keep every key unique. REPLACE puts the rows that it keeps into what
its DELETEs leave. -/
def KeysGuarded (env : InsertEnv) (rows : List Row) : InsertConflict → List Row → Prop
  | .replace, written =>
    env.RowsGuarded ((liveVersions rows).filter fun row =>
      !(written.flatMap env.conflictConds).any fun cond =>
        cond.all fun e => env.whereEq row e.1 e.2) .abort (env.replaceSupersede written)
  | form, written => env.RowsGuarded rows form written

/-- What holds of the prepared rows, after the rows `done` of the statement that have no key of a
row of the table. -/
structure Prepared (env : InsertEnv) (rows done : List Row) (prep : Prep) : Prop where
  primary : ∀ spec ∈ env.schema.primarySpecs,
    ((liveVersions rows ++ prep.prepared).filterMap (rowKey env.coll spec)).Nodup
  uniqueColumns : env.schema.isCompositePk = false → ∀ spec ∈ env.schema.uniqueColumnSpecs,
    ((liveVersions rows ++ prep.prepared).filterMap (rowKey env.coll spec)).Nodup
  uniqueKeys : ∀ spec ∈ env.schema.uniqueKeySpecs,
    ((liveVersions rows ++ prep.prepared).filterMap (rowKey env.coll spec)).Nodup
  seenUnique : env.schema.isCompositePk = false → ∀ row ∈ prep.prepared,
    ∀ e ∈ env.uniqueCells row, ∃ n, (e, n) ∈ prep.seenUnique
  seenPk : env.schema.isCompositePk → ∀ row ∈ prep.prepared,
    ∀ code, encodedKey env.coll env.pkSpec row = some code → code ∈ prep.seenCompositePk
  batch : ∀ e ∈ env.schema.uniqueKeySpecs.zipIdx, ∀ row ∈ prep.prepared, ∀ code,
    encodedKey env.coll e.1 row = some code → (e.2, code) ∈ prep.batch
  seenFrom : ∀ e ∈ prep.seenUnique, ∃ row ∈ done, e.1 ∈ env.uniqueCells row

variable {env : InsertEnv} {row : Row} {col : ColumnDef}

theorem mem_uniqueCells (hcol : col ∈ env.constrained) (h : nullSkipped col row = false) :
    (col.name, env.coll.key (cell row col.name)) ∈ env.uniqueCells row :=
  List.mem_filterMap.mpr ⟨col, hcol, by simp [h]⟩

theorem exists_constrained (hsingle : env.schema.isCompositePk = false) {spec : KeySpec}
    (hspec : spec ∈ env.schema.primarySpecs ∨ spec ∈ env.schema.uniqueColumnSpecs) :
    ∃ col ∈ env.constrained, spec.columns = [col.name] ∧ spec = ⟨[col.name], spec.skipNull⟩ ∧
      (spec.skipNull = false → col.primaryKey) := by
  rcases hspec with hspec | hspec
  · rw [TableSchema.primarySpecs, hsingle] at hspec
    obtain ⟨col, hcol, rfl⟩ := List.mem_map.mp hspec
    rw [List.mem_filter] at hcol
    exact ⟨col, List.mem_filter.mpr ⟨hcol.1, by simp [hcol.2]⟩, rfl, rfl, fun _ => hcol.2⟩
  · obtain ⟨col, hcol, rfl⟩ := List.mem_map.mp hspec
    rw [List.mem_filter] at hcol
    exact ⟨col, List.mem_filter.mpr ⟨hcol.1, by simp [hcol.2]⟩, rfl, rfl,
      fun h => Bool.noConfusion h⟩

/-- The key of a single column, among the values that are recorded. -/
theorem uniqueCells_of_rowKey (hcol : col ∈ env.constrained) {skipNull : Bool}
    (hprimary : skipNull = false → col.primaryKey) {k : List String}
    (h : rowKey env.coll ⟨[col.name], skipNull⟩ row = some k) :
    nullSkipped col row = false ∧ k = [env.coll.key (cell row col.name)] ∧
      (col.name, env.coll.key (cell row col.name)) ∈ env.uniqueCells row := by
  obtain ⟨hnull, rfl⟩ := rowKey_single_eq_some_iff.mp h
  have hskip : nullSkipped col row = false := by
    cases hs : skipNull with
    | false => simp [nullSkipped, hprimary hs]
    | true => simp [nullSkipped, hnull hs]
  exact ⟨hskip, rfl, mem_uniqueCells hcol hskip⟩

variable {rows : List Row}

theorem columnHits_eq_nil (hcomplete : LookupComplete env.coll env.holder)
    (h : env.columnHits rows row = []) (hcol : col ∈ env.constrained)
    (hskip : nullSkipped col row = false) :
    ∀ live ∈ liveVersions rows,
      env.coll.key (cell live col.name) ≠ env.coll.key (cell row col.name) := by
  rw [columnHits, List.filterMap_eq_nil_iff] at h
  have hnone := h col hcol
  simp only [hskip, Bool.false_eq_true, if_false, Option.map_eq_none_iff] at hnone
  exact hcomplete rows col.name _ hnone

theorem compositePkHits_eq_nil (h : env.compositePkHits rows row = []) :
    ∀ live ∈ liveVersions rows,
      rowKey env.coll env.pkSpec live ≠ rowKey env.coll env.pkSpec row := by
  intro live hlive he
  have hnone : (liveVersions rows).find? (fun existing =>
      encodedKey env.coll env.pkSpec existing == encodedKey env.coll env.pkSpec row) = none := by
    rw [compositePkHits, Option.toList_eq_nil_iff, Option.map_eq_none_iff] at h
    exact h
  refine List.find?_eq_none.mp hnone live hlive ?_
  rw [beq_iff_eq, encodedKey, encodedKey, he]

theorem uniqueKeyHits_eq_nil (h : env.uniqueKeyHits rows row = []) {spec : KeySpec}
    (hspec : spec ∈ env.schema.uniqueKeySpecs) {k : List String}
    (hk : rowKey env.coll spec row = some k) :
    ∀ live ∈ liveVersions rows, rowKey env.coll spec live ≠ some k := by
  intro live hlive he
  rw [uniqueKeyHits, List.filterMap_eq_nil_iff] at h
  have hnone := h spec hspec
  rw [encodedKey, hk, Option.map_some, Option.bind_some, Option.map_eq_none_iff] at hnone
  refine List.find?_eq_none.mp hnone live hlive ?_
  rw [beq_iff_eq, encodedKey, he, Option.map_some]

variable {batch : List (Nat × String)}

theorem useBatchKeys_ok {keys : List (KeySpec × Nat)} {batch' : List (Nat × String)}
    (h : env.useBatchKeys false row keys batch = (batch', none)) :
    batch ⊆ batch' ∧ ∀ e ∈ keys, ∀ code, encodedKey env.coll e.1 row = some code →
      (e.2, code) ∉ batch ∧ (e.2, code) ∈ batch' := by
  induction keys generalizing batch with
  | nil =>
    rw [useBatchKeys] at h
    obtain ⟨rfl, -⟩ := Prod.mk.inj h
    exact ⟨List.Subset.refl _, nofun⟩
  | cons key keys ih =>
    obtain ⟨spec, n⟩ := key
    rw [useBatchKeys] at h
    cases hcode : encodedKey env.coll spec row with
    | none =>
      simp only [hcode] at h
      obtain ⟨hsub, hrest⟩ := ih h
      refine ⟨hsub, fun e he code hc => ?_⟩
      rcases List.mem_cons.mp he with rfl | he
      · rw [hcode] at hc
        cases hc
      · exact hrest e he code hc
    | some code =>
      simp only [hcode] at h
      split at h
      · simp at h
      · rename_i hnot
        obtain ⟨hsub, hrest⟩ := ih h
        refine ⟨fun e he => hsub (.tail _ he), fun e he c hc => ?_⟩
        rcases List.mem_cons.mp he with rfl | he
        · rw [hcode] at hc
          cases hc
          exact ⟨hnot, hsub List.mem_cons_self⟩
        · obtain ⟨hout, hin⟩ := hrest e he c hc
          exact ⟨fun hin' => hout (.tail _ hin'), hin⟩

theorem useBatchKeys_subset {lenient : Bool} {keys : List (KeySpec × Nat)} :
    batch ⊆ (env.useBatchKeys lenient row keys batch).1 := by
  induction keys generalizing batch with
  | nil => exact List.Subset.refl _
  | cons key keys ih =>
    obtain ⟨spec, n⟩ := key
    rw [useBatchKeys]
    split
    · exact ih
    · split
      · split
        · exact ih
        · exact List.Subset.refl _
      · exact fun e he => ih (.tail _ he)

variable {seen : List ((String × String) × Nat)}

theorem earliestRepeat_eq_none (h : env.earliestRepeat seen row = none)
    (hcol : col ∈ env.constrained) {n : Nat} :
    ((col.name, env.coll.key (cell row col.name)), n) ∉ seen := by
  have hfold : ∀ (found : List (String × Nat)) (best : Option (String × Nat)),
      found.foldl (fun best hit =>
        match best with
        | none => some hit
        | some b => if hit.2 < b.2 then some hit else some b) best = none →
      best = none ∧ found = [] := by
    intro found
    induction found with
    | nil => exact fun best hbest => ⟨hbest, rfl⟩
    | cons hit found ih =>
      intro best hbest
      rw [List.foldl_cons] at hbest
      obtain ⟨hnone, -⟩ := ih _ hbest
      cases best with
      | none => cases hnone
      | some b =>
        simp only at hnone
        split at hnone <;> cases hnone
  intro hin
  have hnil := (hfold _ _ h).2
  rw [List.filterMap_eq_nil_iff] at hnil
  have hnone := hnil col hcol
  rw [Option.map_eq_none_iff, List.find?_eq_none] at hnone
  exact hnone _ hin (by simp)

theorem earliestRepeat_eq_some {hit : String × Nat} (h : env.earliestRepeat seen row = some hit) :
    ∃ e ∈ seen, ∃ col ∈ env.constrained, e.1 = (col.name, env.coll.key (cell row col.name)) := by
  by_contra hnone
  push Not at hnone
  have hnil : (env.constrained.filterMap fun col =>
      (seen.find? fun e => e.1 == (col.name, env.coll.key (cell row col.name))).map fun e =>
        (col.name, e.2)) = [] := by
    rw [List.filterMap_eq_nil_iff]
    intro col hcol
    rw [Option.map_eq_none_iff, List.find?_eq_none]
    intro e he heq
    exact hnone e he col hcol (beq_iff_eq.mp heq)
  rw [earliestRepeat] at h
  simp only [hnil, List.foldl_nil] at h
  cases h

theorem cell_tag (hschema : env.schema.WellFormed) (hsingle : env.schema.isCompositePk = false)
    (hcol : col ∈ env.constrained) (row : Row) (id : Nat) :
    cell (row.tag id) col.name = cell row col.name := by
  obtain ⟨spec, hspec, hmem⟩ : ∃ spec ∈ env.schema.keySpecs, col.name ∈ spec.columns := by
    rw [constrained, List.mem_filter, Bool.or_eq_true] at hcol
    rcases hcol.2 with hpk | hunique
    · refine ⟨⟨[col.name], false⟩, mem_keySpecs_iff.mpr (.inl ?_), List.mem_singleton_self _⟩
      rw [TableSchema.primarySpecs, hsingle]
      exact List.mem_map.mpr ⟨col, List.mem_filter.mpr ⟨hcol.1, hpk⟩, rfl⟩
    · refine ⟨⟨[col.name], true⟩, mem_keySpecs_iff.mpr (.inr (.inl ?_)), List.mem_singleton_self _⟩
      exact List.mem_map.mpr ⟨col, List.mem_filter.mpr ⟨hcol.1, hunique⟩, rfl⟩
  have hxmax : col.name ≠ "_xmax" := fun he => hschema.xmaxNotKey spec hspec (he ▸ hmem)
  have hxmin : col.name ≠ "_xmin" := fun he => hschema.xminNotKey spec hspec (he ▸ hmem)
  rw [Row.tag, cell_set_of_ne _ hxmax, cell_set_of_ne _ hxmin]

theorem uniqueCells_congr {row' : Row}
    (h : ∀ col ∈ env.constrained, cell row col.name = cell row' col.name) :
    env.uniqueCells row = env.uniqueCells row' := by
  refine List.filterMap_congr fun col hcol => ?_
  rw [nullSkipped, nullSkipped, h col hcol]

variable {done : List Row} {prep : Prep}

theorem Prepared.mono {done' : List Row} (h : Prepared env rows done prep) (hsub : done ⊆ done') :
    Prepared env rows done' prep where
  primary := h.primary
  uniqueColumns := h.uniqueColumns
  uniqueKeys := h.uniqueKeys
  seenUnique := h.seenUnique
  seenPk := h.seenPk
  batch := h.batch
  seenFrom := fun e he => by
    obtain ⟨row, hrow, hcell⟩ := h.seenFrom e he
    exact ⟨row, hsub hrow, hcell⟩

variable {prep' : Prep}

theorem Prepared.congr (h : Prepared env rows done prep)
    (hprepared : prep'.prepared = prep.prepared) (hseen : prep'.seenUnique = prep.seenUnique)
    (hpk : prep'.seenCompositePk = prep.seenCompositePk) (hbatch : prep.batch ⊆ prep'.batch) :
    Prepared env rows done prep' where
  primary := by rw [hprepared]; exact h.primary
  uniqueColumns := by rw [hprepared]; exact h.uniqueColumns
  uniqueKeys := by rw [hprepared]; exact h.uniqueKeys
  seenUnique := by rw [hprepared, hseen]; exact h.seenUnique
  seenPk := by rw [hprepared, hpk]; exact h.seenPk
  batch := by
    rw [hprepared]
    exact fun e he row hrow code hcode => hbatch (h.batch e he row hrow code hcode)
  seenFrom := by rw [hseen]; exact h.seenFrom

/-- The row has no key of the kind that a row of the table or of the statement has. -/
def NewKey (env : InsertEnv) (rows : List Row) (prep : Prep) (row : Row) (spec : KeySpec) : Prop :=
  ∀ r ∈ liveVersions rows ++ prep.prepared, ∀ k,
    rowKey env.coll spec r = some k → rowKey env.coll spec row ≠ some k

/-- A row with new keys joins the prepared ones. -/
theorem Prepared.push (h : Prepared env rows done prep) (hschema : env.schema.WellFormed)
    (hprepared : prep'.prepared = prep.prepared ++ [row.tag env.tagId])
    (hprimary : ∀ spec ∈ env.schema.primarySpecs, env.NewKey rows prep row spec)
    (hcolumns : env.schema.isCompositePk = false → ∀ spec ∈ env.schema.uniqueColumnSpecs,
      env.NewKey rows prep row spec)
    (hkeys : ∀ spec ∈ env.schema.uniqueKeySpecs, env.NewKey rows prep row spec)
    (hseen : prep.seenUnique ⊆ prep'.seenUnique)
    (hseenRow : env.schema.isCompositePk = false → ∀ e ∈ env.uniqueCells row,
      ∃ n, (e, n) ∈ prep'.seenUnique)
    (hseenFrom : ∀ e ∈ prep'.seenUnique, e ∈ prep.seenUnique ∨ e.1 ∈ env.uniqueCells row)
    (hpk : prep.seenCompositePk ⊆ prep'.seenCompositePk)
    (hpkRow : env.schema.isCompositePk → ∀ code,
      encodedKey env.coll env.pkSpec row = some code → code ∈ prep'.seenCompositePk)
    (hbatch : prep.batch ⊆ prep'.batch) (hbatchRow : ∀ e ∈ env.schema.uniqueKeySpecs.zipIdx, ∀ code,
      encodedKey env.coll e.1 row = some code → (e.2, code) ∈ prep'.batch) :
    Prepared env rows (done ++ [row]) prep' := by
  have hnodup : ∀ spec ∈ env.schema.keySpecs, env.NewKey rows prep row spec →
      ((liveVersions rows ++ prep.prepared).filterMap (rowKey env.coll spec)).Nodup →
      ((liveVersions rows ++ prep'.prepared).filterMap (rowKey env.coll spec)).Nodup := by
    intro spec hspec hnew hold
    rw [hprepared, ← List.append_assoc]
    refine nodup_filterMap_concat hold fun r hr k hk => ?_
    rw [rowKey_tag hschema hspec]
    exact hnew r hr k hk
  have hmem : ∀ r ∈ prep'.prepared, r ∈ prep.prepared ∨ r = row.tag env.tagId := by
    intro r hr
    rw [hprepared, List.mem_append, List.mem_singleton] at hr
    exact hr
  refine ⟨fun spec hspec => ?_, fun hsingle spec hspec => ?_, fun spec hspec => ?_,
    fun hsingle r hr e he => ?_, fun hcomposite r hr code hcode => ?_,
    fun e he r hr code hcode => ?_, fun e he => ?_⟩
  · exact hnodup spec (mem_keySpecs_iff.mpr (.inl hspec)) (hprimary spec hspec)
      (h.primary spec hspec)
  · exact hnodup spec (mem_keySpecs_iff.mpr (.inr (.inl hspec))) (hcolumns hsingle spec hspec)
      (h.uniqueColumns hsingle spec hspec)
  · exact hnodup spec (mem_keySpecs_iff.mpr (.inr (.inr hspec))) (hkeys spec hspec)
      (h.uniqueKeys spec hspec)
  · rcases hmem r hr with hr | rfl
    · obtain ⟨n, hn⟩ := h.seenUnique hsingle r hr e he
      exact ⟨n, hseen hn⟩
    · rw [uniqueCells_congr fun col hcol => cell_tag hschema hsingle hcol row env.tagId] at he
      exact hseenRow hsingle e he
  · have hspec : env.pkSpec ∈ env.schema.keySpecs := by
      rw [mem_keySpecs_iff, TableSchema.primarySpecs, hcomposite]
      exact .inl (List.mem_singleton_self _)
    rcases hmem r hr with hr | rfl
    · exact hpk (h.seenPk hcomposite r hr code hcode)
    · rw [encodedKey, rowKey_tag hschema hspec] at hcode
      exact hpkRow hcomposite code hcode
  · rcases hmem r hr with hr | rfl
    · exact hbatch (h.batch e he r hr code hcode)
    · have hspec : e.1 ∈ env.schema.keySpecs := by
        rw [mem_keySpecs_iff]
        exact .inr (.inr (List.fst_mem_of_mem_zipIdx he))
      rw [encodedKey, rowKey_tag hschema hspec] at hcode
      exact hbatchRow e he code hcode
  · rcases hseenFrom e he with he | he
    · obtain ⟨r, hr, hcell⟩ := h.seenFrom e he
      exact ⟨r, List.mem_append_left _ hr, hcell⟩
    · exact ⟨row, List.mem_append_right _ (List.mem_singleton_self _), he⟩

theorem finishRow_eq_ok (h : env.finishRow row prep = .ok prep') :
    prep' = { prep with prepared := prep.prepared ++ [row.tag env.tagId] } := by
  rw [finishRow] at h
  split at h
  · cases h
  · exact (Except.ok.inj h).symm

theorem filterMap_set_of_eq {κ : Type} {key : Row → Option κ} {i : Nat} (hi : i < rows.length)
    (h : key row = key (rows.getD i ∅)) : (rows.set i row).filterMap key = rows.filterMap key := by
  have hmap : (rows.set i row).map key = rows.map key := by
    rw [List.map_set]
    refine List.ext_getElem (by simp) fun j hj hj' => ?_
    rw [List.getElem_set]
    split
    · rename_i he
      subst he
      rw [h, List.getElem_map, List.getD_eq_getElem?_getD, List.getElem?_eq_getElem hi,
        Option.getD_some]
    · rfl
  calc (rows.set i row).filterMap key
      = ((rows.set i row).map key).filterMap id := by rw [List.filterMap_map]; rfl
    _ = (rows.map key).filterMap id := by rw [hmap]
    _ = rows.filterMap key := by rw [List.filterMap_map]; rfl

variable {assignments : Assignments}

theorem cell_assignInPlace {values : Row} {target target' : Row}
    (h : env.assignInPlace values assignments target = .ok target') {col : String}
    (hcol : ∀ a ∈ assignments, a.1 ≠ col) : cell target' col = cell target col := by
  induction assignments generalizing target with
  | nil =>
    rw [assignInPlace] at h
    rw [Except.ok.inj h]
  | cons a rest ih =>
    obtain ⟨column, expr⟩ := a
    rw [assignInPlace] at h
    split at h
    · cases h
    · rename_i value hvalue
      have hne : column ≠ col := hcol (column, expr) List.mem_cons_self
      rw [ih h fun a ha => hcol a (.tail _ ha), cell_set_of_ne _ hne.symm]

/-- A prepared row is changed in place, in columns that belong to no key. -/
theorem Prepared.assign (h : Prepared env rows done prep)
    (hsingle : env.schema.isCompositePk = false) (hkeep : env.KeepsKeyColumns assignments)
    {values target : Row} {best : Nat} (hbest : best < prep.prepared.length)
    (hassign : env.assignInPlace values assignments (prep.prepared.getD best ∅) = .ok target) :
    Prepared env rows done { prep with prepared := prep.prepared.set best target } := by
  have hkey : ∀ spec ∈ env.schema.keySpecs,
      rowKey env.coll spec target = rowKey env.coll spec (prep.prepared.getD best ∅) := by
    intro spec hspec
    refine rowKey_congr fun col hcol => cell_assignInPlace hassign fun a ha he => ?_
    exact hkeep a ha spec hspec (he ▸ hcol)
  have hold : prep.prepared.getD best ∅ ∈ prep.prepared := by
    rw [List.getD_eq_getElem?_getD, List.getElem?_eq_getElem hbest, Option.getD_some]
    exact List.getElem_mem hbest
  have hcells : env.uniqueCells target = env.uniqueCells (prep.prepared.getD best ∅) := by
    refine uniqueCells_congr fun col hcol => cell_assignInPlace hassign fun a ha he => ?_
    rw [constrained, List.mem_filter, Bool.or_eq_true] at hcol
    rcases hcol.2 with hpk | hunique
    · refine hkeep a ha ⟨[col.name], false⟩ (mem_keySpecs_iff.mpr (.inl ?_))
        (he ▸ List.mem_singleton_self _)
      rw [TableSchema.primarySpecs, hsingle]
      exact List.mem_map.mpr ⟨col, List.mem_filter.mpr ⟨hcol.1, hpk⟩, rfl⟩
    · refine hkeep a ha ⟨[col.name], true⟩ (mem_keySpecs_iff.mpr (.inr (.inl ?_)))
        (he ▸ List.mem_singleton_self _)
      exact List.mem_map.mpr ⟨col, List.mem_filter.mpr ⟨hcol.1, hunique⟩, rfl⟩
  have hnodup : ∀ spec ∈ env.schema.keySpecs,
      ((liveVersions rows ++ prep.prepared).filterMap (rowKey env.coll spec)).Nodup →
      ((liveVersions rows ++ prep.prepared.set best target).filterMap
        (rowKey env.coll spec)).Nodup := by
    intro spec hspec hnodup
    rw [List.filterMap_append, filterMap_set_of_eq hbest (hkey spec hspec), ← List.filterMap_append]
    exact hnodup
  refine ⟨fun spec hspec => ?_, fun _ spec hspec => ?_, fun spec hspec => ?_,
    fun _ r hr e he => ?_, fun hcomposite => ?_, fun e he r hr code hcode => ?_, h.seenFrom⟩
  · exact hnodup spec (mem_keySpecs_iff.mpr (.inl hspec)) (h.primary spec hspec)
  · exact hnodup spec (mem_keySpecs_iff.mpr (.inr (.inl hspec)))
      (h.uniqueColumns hsingle spec hspec)
  · exact hnodup spec (mem_keySpecs_iff.mpr (.inr (.inr hspec))) (h.uniqueKeys spec hspec)
  · rcases List.mem_or_eq_of_mem_set hr with hr | rfl
    · exact h.seenUnique hsingle r hr e he
    · exact h.seenUnique hsingle _ hold e (hcells ▸ he)
  · rw [hsingle] at hcomposite
    cases hcomposite
  · rcases List.mem_or_eq_of_mem_set hr with hr | rfl
    · exact h.batch e he r hr code hcode
    · have hspec : e.1 ∈ env.schema.keySpecs :=
        mem_keySpecs_iff.mpr (.inr (.inr (List.fst_mem_of_mem_zipIdx he)))
      rw [encodedKey, hkey e.1 hspec] at hcode
      exact h.batch e he _ hold code hcode

/-- The single-column keys of a row that passes are new. -/
theorem newKey_of_columns (h : Prepared env rows done prep)
    (hcomplete : LookupComplete env.coll env.holder) (hsingle : env.schema.isCompositePk = false)
    (hhits : env.columnHits rows row = []) (hrepeat : env.earliestRepeat prep.seenUnique row = none)
    {spec : KeySpec}
    (hspec : spec ∈ env.schema.primarySpecs ∨ spec ∈ env.schema.uniqueColumnSpecs) :
    env.NewKey rows prep row spec := by
  obtain ⟨col, hcol, -, hform, hprimary⟩ := exists_constrained hsingle hspec
  rw [hform]
  intro r hr k hk hrow
  obtain ⟨-, hkr, hcellr⟩ := uniqueCells_of_rowKey hcol hprimary hk
  obtain ⟨hskip, hkrow, -⟩ := uniqueCells_of_rowKey hcol hprimary hrow
  rw [hkr, List.cons.injEq] at hkrow
  rcases List.mem_append.mp hr with hr | hr
  · exact columnHits_eq_nil hcomplete hhits hcol hskip r hr hkrow.1
  · obtain ⟨n, hn⟩ := h.seenUnique hsingle r hr _ hcellr
    rw [hkrow.1] at hn
    exact earliestRepeat_eq_none hrepeat hcol hn

/-- The keys over several columns of a row that passes are new. -/
theorem newKey_of_batch (h : Prepared env rows done prep) (hhits : env.uniqueKeyHits rows row = [])
    (hbatch : env.useBatchKeys false row env.schema.uniqueKeySpecs.zipIdx prep.batch =
      (batch, none)) {spec : KeySpec} (hspec : spec ∈ env.schema.uniqueKeySpecs) :
    env.NewKey rows prep row spec := by
  intro r hr k hk hrow
  rcases List.mem_append.mp hr with hr | hr
  · exact uniqueKeyHits_eq_nil hhits hspec hrow r hr hk
  · obtain ⟨n, hn, hget⟩ := List.getElem_of_mem hspec
    have hin : (spec, n) ∈ env.schema.uniqueKeySpecs.zipIdx := by
      rw [List.mem_zipIdx_iff_getElem?, List.getElem?_eq_getElem hn, hget]
    have hcode : ∀ r', rowKey env.coll spec r' = some k →
        encodedKey env.coll spec r' = some (LengthPrefix.encode k) := by
      intro r' hr'
      rw [encodedKey, hr', Option.map_some]
    exact ((useBatchKeys_ok hbatch).2 (spec, n) hin _ (hcode row hrow)).1
      (h.batch (spec, n) hin r hr _ (hcode r hk))

/-- The step lemma of the last check. -/
theorem Prepared.repeatsEarlierRow (h : Prepared env rows done prep)
    (hschema : env.schema.WellFormed) (hcomplete : LookupComplete env.coll env.holder)
    (hhits : env.tableHits rows row = [])
    (hkeys : ∀ spec ∈ env.schema.uniqueKeySpecs, env.NewKey rows prep row spec)
    (hbatchRow : ∀ e ∈ env.schema.uniqueKeySpecs.zipIdx, ∀ code,
      encodedKey env.coll e.1 row = some code → (e.2, code) ∈ prep.batch)
    (hinPlace : ∀ assignments, form = .update assignments → env.schema.isCompositePk = false →
      env.KeepsKeyColumns assignments ∨ ∀ r ∈ done, env.CellsApart r row)
    (hstep : env.repeatsEarlierRow form false row prep = .ok prep') :
    Prepared env rows (done ++ [row]) prep' := by
  have hmono := h.mono (List.subset_append_left done [row])
  rw [tableHits, List.append_eq_nil_iff] at hhits
  simp only [InsertEnv.repeatsEarlierRow, Bool.false_and, and_true] at hstep
  split at hstep
  · rename_i hcomposite
    rw [if_pos hcomposite] at hhits
    split at hstep
    · split at hstep
      · cases hstep
        exact hmono
      · cases hstep
    · rename_i hnew
      rw [finishRow_eq_ok hstep]
      have hkey : rowKey env.coll env.pkSpec row =
          some (env.schema.primaryKeyColumns.map fun col => env.coll.key (cell row col)) := rfl
      refine h.push hschema rfl (fun spec hspec => ?_) (fun hsingle => ?_) hkeys
        (List.Subset.refl _) (fun hsingle => ?_) (fun e he => .inl he)
        (List.subset_cons_self _ _) (fun _ code hcode => ?_) (List.Subset.refl _) hbatchRow
      · rw [TableSchema.primarySpecs, if_pos hcomposite, List.mem_singleton] at hspec
        subst hspec
        intro r hr k hk hrow
        rcases List.mem_append.mp hr with hr | hr
        · exact compositePkHits_eq_nil hhits.1 r hr (hk.trans hrow.symm)
        · refine hnew (h.seenPk hcomposite r hr _ ?_)
          have hrk : rowKey env.coll env.pkSpec r = rowKey env.coll env.pkSpec row :=
            hk.trans hrow.symm
          rw [encodedKey, hrk, hkey, Option.map_some]
      · rw [hcomposite] at hsingle
        cases hsingle
      · rw [hcomposite] at hsingle
        cases hsingle
      · rw [encodedKey, hkey, Option.map_some, Option.some.injEq] at hcode
        exact hcode ▸ List.mem_cons_self
  · rename_i hcomposite
    have hsingle : env.schema.isCompositePk = false := by simpa using hcomposite
    rw [if_neg hcomposite] at hhits
    split at hstep
    · rename_i hrepeat
      rw [finishRow_eq_ok hstep]
      have hnew : ∀ spec, spec ∈ env.schema.primarySpecs ∨ spec ∈ env.schema.uniqueColumnSpecs →
          env.NewKey rows prep row spec :=
        fun spec hspec => newKey_of_columns h hcomplete hsingle hhits.1 hrepeat hspec
      refine h.push hschema rfl (fun spec hspec => hnew spec (.inl hspec))
        (fun _ spec hspec => hnew spec (.inr hspec)) hkeys (List.subset_append_left _ _)
        (fun _ e he => ⟨prep.rowsRecorded, List.mem_append_right _ (List.mem_map.mpr ⟨e, he, rfl⟩)⟩)
        (fun e he => ?_) (List.Subset.refl _) (fun hc => ?_) (List.Subset.refl _) hbatchRow
      · rcases List.mem_append.mp he with he | he
        · exact .inl he
        · obtain ⟨e', he', rfl⟩ := List.mem_map.mp he
          exact .inr he'
      · rw [hsingle] at hc
        cases hc
    · rename_i col best hrepeat
      simp only [Bool.false_eq_true, if_false] at hstep
      cases form with
      | abort => cases hstep
      | replace => cases hstep
      | ignore =>
        cases hstep
        exact hmono
      | update assignments =>
        simp only at hstep
        split at hstep
        · rename_i hbest
          split at hstep
          · cases hstep
          · rename_i target hassign
            cases hstep
            rcases hinPlace assignments rfl hsingle with hkeep | hapart
            · exact (h.assign hsingle hkeep hbest hassign).mono
                (List.subset_append_left done [row])
            · obtain ⟨e, he, col', hcol', heq⟩ := earliestRepeat_eq_some hrepeat
              obtain ⟨r, hr, hcell⟩ := h.seenFrom e he
              exact absurd heq (hapart r hr e.1 hcell col' hcol')
        · cases hstep

theorem verdict_nil (form : InsertConflict) : verdict form [] = .go [] := by
  cases form <;> rfl

/-- The step lemma of the loop over the rows, for a row with no key of a row of the table. -/
theorem Prepared.insertRow (h : Prepared env rows done prep) (hschema : env.schema.WellFormed)
    (hcomplete : LookupComplete env.coll env.holder) (hhits : env.tableHits rows row = [])
    (hinPlace : ∀ assignments, form = .update assignments → env.schema.isCompositePk = false →
      env.KeepsKeyColumns assignments ∨ ∀ r ∈ done, env.CellsApart r row)
    (hstep : env.insertRow rows form false row prep = .ok prep') :
    Prepared env rows (done ++ [row]) prep' := by
  have hmono := h.mono (List.subset_append_left done [row])
  simp only [InsertEnv.insertRow, hhits, verdict_nil, Bool.false_and] at hstep
  split at hstep
  · rename_i batch e hbatch
    split at hstep
    · cases hstep
      refine hmono.congr rfl rfl rfl ?_
      have hsub : prep.batch ⊆ (env.useBatchKeys false row env.schema.uniqueKeySpecs.zipIdx
        prep.batch).1 := useBatchKeys_subset
      rwa [hbatch] at hsub
    · cases hstep
  · rename_i batch hbatch
    obtain ⟨hsub, hrest⟩ := useBatchKeys_ok hbatch
    have hkeyHits : env.uniqueKeyHits rows row = [] := by
      rw [tableHits, List.append_eq_nil_iff] at hhits
      exact hhits.2
    have hprep : Prepared env rows done
        { prep with batch := batch, victims := prep.victims ++ [] } :=
      h.congr rfl rfl rfl hsub
    refine hprep.repeatsEarlierRow hschema hcomplete hhits (fun spec hspec => ?_)
      (fun e he code hcode => (hrest e he code hcode).2) hinPlace hstep
    exact newKey_of_batch h hkeyHits hbatch hspec

/-- A row that has a key of a row of the table is refused, passed over, or left to an update. -/
theorem insertRow_of_hit (hform : form.isReplace = false) (hhits : env.tableHits rows row ≠ [])
    (hstep : env.insertRow rows form false row prep = .ok prep') :
    ∃ pending, prep' = { prep with pending := pending } := by
  obtain ⟨hit, hits, hcons⟩ := List.exists_cons_of_ne_nil hhits
  rw [InsertEnv.insertRow, hcons] at hstep
  cases form with
  | replace => cases hform
  | abort => cases hstep
  | ignore | update assignments =>
    cases hstep
    exact ⟨_, rfl⟩

theorem unhit_cons_of_nil {news : List Row} (h : env.tableHits rows row = []) :
    env.unhit rows (row :: news) = row :: env.unhit rows news := by
  rw [unhit, List.filter_cons_of_pos (by rw [h]; rfl), unhit]

theorem unhit_cons_of_hit {news : List Row} (h : env.tableHits rows row ≠ []) :
    env.unhit rows (row :: news) = env.unhit rows news := by
  rw [unhit, List.filter_cons_of_neg (by simpa using h), unhit]

theorem filled_cons {written : Row} {rest : List Row} {rowNo : Nat}
    (h : env.fill false rowNo written = .ok row) :
    env.filled rowNo (written :: rest) = row :: env.filled (rowNo + 1) rest := by
  rw [filled, h]

/-- The run lemma: all rows of the statement have been looked at. -/
theorem Prepared.prepareRows (hschema : env.schema.WellFormed)
    (hcomplete : LookupComplete env.coll env.holder) (hform : form.isReplace = false)
    {written : List Row} {rowNo : Nat} (h : Prepared env rows done prep)
    (hinPlace : ∀ assignments, form = .update assignments → env.schema.isCompositePk = false →
      env.KeepsKeyColumns assignments ∨
        (done ++ env.unhit rows (env.filled rowNo written)).Pairwise env.CellsApart)
    (hrun : env.prepareRows rows form false rowNo written prep = .ok prep') :
    Prepared env rows (done ++ env.unhit rows (env.filled rowNo written)) prep' := by
  induction written generalizing rowNo done prep with
  | nil =>
    rw [InsertEnv.prepareRows] at hrun
    cases hrun
    rw [filled, unhit, List.filter_nil, List.append_nil]
    exact h
  | cons written rest ih =>
    rw [InsertEnv.prepareRows] at hrun
    split at hrun
    · cases hrun
    · rename_i row hfill
      rw [filled_cons hfill] at hinPlace ⊢
      split at hrun
      · cases hrun
      · rename_i prep₁ hrow
        by_cases hhits : env.tableHits rows row = []
        · have happend : done ++ row :: env.unhit rows (env.filled (rowNo + 1) rest) =
              (done ++ [row]) ++ env.unhit rows (env.filled (rowNo + 1) rest) := by
            rw [List.append_assoc, List.singleton_append]
          rw [unhit_cons_of_nil hhits] at hinPlace ⊢
          have hstep := h.insertRow hschema hcomplete hhits (fun assignments hupdate hsingle => by
            refine (hinPlace assignments hupdate hsingle).imp_right fun hpairwise r hr => ?_
            exact (List.pairwise_append.mp hpairwise).2.2 r hr row List.mem_cons_self) hrow
          rw [happend] at hinPlace ⊢
          exact ih hstep hinPlace hrun
        · rw [unhit_cons_of_hit hhits] at hinPlace ⊢
          obtain ⟨pending, rfl⟩ := insertRow_of_hit hform hhits hrow
          have hstep : Prepared env rows done { prep with pending := pending } :=
            h.congr rfl rfl rfl (List.Subset.refl _)
          exact ih hstep hinPlace hrun

theorem Prepared.init (h : KeysUnique env.coll env.schema rows) :
    Prepared env rows [] {} where
  primary := fun spec hspec => by
    rw [List.append_nil]
    exact h spec (mem_keySpecs_iff.mpr (.inl hspec))
  uniqueColumns := fun _ spec hspec => by
    rw [List.append_nil]
    exact h spec (mem_keySpecs_iff.mpr (.inr (.inl hspec)))
  uniqueKeys := fun spec hspec => by
    rw [List.append_nil]
    exact h spec (mem_keySpecs_iff.mpr (.inr (.inr hspec)))
  seenUnique := nofun
  seenPk := nofun
  batch := nofun
  seenFrom := nofun

/-- A row without a hit is prepared under a composite primary key when its keys are new. -/
theorem insertRow_composite (hcomposite : env.schema.isCompositePk)
    (hhits : env.tableHits rows row = [])
    (hstep : env.insertRow rows form false row prep = .ok prep') :
    prep'.batch = (env.useBatchKeys false row env.schema.uniqueKeySpecs.zipIdx prep.batch).1 ∧
      if env.keysNew prep.batch prep.seenCompositePk row then
        prep'.prepared = prep.prepared ++ [row.tag env.tagId] ∧
          prep'.seenCompositePk = env.pkCode row :: prep.seenCompositePk
      else prep'.prepared = prep.prepared ∧ prep'.seenCompositePk = prep.seenCompositePk := by
  simp only [InsertEnv.insertRow, hhits, verdict_nil, Bool.false_and] at hstep
  split at hstep
  · rename_i batch e hbatch
    split_ifs at hstep
    cases hstep
    simp [keysNew, hbatch]
  · rename_i batch hbatch
    simp only [InsertEnv.repeatsEarlierRow, if_pos hcomposite, Bool.false_and, and_true] at hstep
    split at hstep
    · rename_i hseen
      split_ifs at hstep
      cases hstep
      simp [keysNew, hbatch, pkCode, hseen]
    · rename_i hseen
      rw [finishRow_eq_ok hstep]
      simp [keysNew, hbatch, pkCode, hseen]

/-- Under a composite primary key the rows that enter are prepared. -/
theorem prepareRows_composite (hcomposite : env.schema.isCompositePk)
    (hform : form.isReplace = false) {written : List Row} {rowNo : Nat}
    (hrun : env.prepareRows rows form false rowNo written prep = .ok prep') :
    prep'.prepared = prep.prepared ++ (env.entering prep.batch prep.seenCompositePk
      (env.unhit rows (env.filled rowNo written))).map fun row => row.tag env.tagId := by
  induction written generalizing rowNo prep with
  | nil =>
    rw [InsertEnv.prepareRows] at hrun
    cases hrun
    simp [filled, unhit, entering]
  | cons written rest ih =>
    rw [InsertEnv.prepareRows] at hrun
    split at hrun
    · cases hrun
    · rename_i row hfill
      rw [filled_cons hfill]
      split at hrun
      · cases hrun
      · rename_i prep₁ hrow
        rw [ih hrun]
        by_cases hhits : env.tableHits rows row = []
        · obtain ⟨hbatch, hnext⟩ := insertRow_composite hcomposite hhits hrow
          rw [unhit_cons_of_nil hhits, entering, hbatch]
          split at hnext
          · rename_i hnew
            rw [if_pos hnew, hnext.1, hnext.2, List.map_cons, List.append_assoc,
              List.singleton_append]
          · rename_i hmet
            rw [if_neg hmet, hnext.1, hnext.2]
        · rw [unhit_cons_of_hit hhits]
          obtain ⟨pending, rfl⟩ := insertRow_of_hit hform hhits hrow
          rfl

/-- The prepared rows are appended. -/
theorem Prepared.keysUnique (h : Prepared env rows done prep)
    (hcomposite : env.schema.isCompositePk → ∀ spec ∈ env.schema.uniqueColumnSpecs,
      ((liveVersions (rows ++ prep.prepared)).filterMap (rowKey env.coll spec)).Nodup) :
    KeysUnique env.coll env.schema (rows ++ prep.prepared) := by
  have hsub : (liveVersions (rows ++ prep.prepared)).Sublist
      (liveVersions rows ++ prep.prepared) := by
    rw [liveVersions_append]
    exact (List.Sublist.refl _).append List.filter_sublist
  intro spec hspec
  rcases mem_keySpecs_iff.mp hspec with hmem | hmem | hmem
  · exact nodup_filterMap_of_sublist (h.primary spec hmem) hsub
  · cases hc : env.schema.isCompositePk with
    | false => exact nodup_filterMap_of_sublist (h.uniqueColumns hc spec hmem) hsub
    | true => exact hcomposite hc spec hmem
  · exact nodup_filterMap_of_sublist (h.uniqueKeys spec hmem) hsub

theorem isVisible_of_mem_rowsAt {selects : Row → Bool}
    (h : row ∈ rowsAt rows fun pos => (rows[pos]?).any fun r => isVisible r && selects r) :
    isVisible row := by
  obtain ⟨e, he, rfl⟩ := List.mem_map.mp h
  rw [List.mem_filter] at he
  have hget := List.mem_zipIdx_iff_getElem?.mp he.1
  have hany : (rows[e.2]?).any (fun r => isVisible r && selects r) := he.2
  rw [hget, Option.any_some, Bool.and_eq_true] at hany
  exact hany.1

variable {rows' : List Row}

/-- An UPDATE statement keeps every key unique. -/
theorem execUpdate_keysUnique (h : KeysUnique env.coll env.schema rows)
    (hschema : env.schema.WellFormed) (hcomplete : LookupComplete env.coll env.holder)
    {selects : Row → Bool} {newVersion : Row → Except KeyError Row}
    (hkept : ∀ old new, newVersion old = .ok new → env.schema.KeepsUnchecked env.coll old new)
    (hstep : env.execUpdate rows selects newVersion = .ok rows') :
    KeysUnique env.coll env.schema rows' := by
  simp only [execUpdate] at hstep
  split at hstep
  · cases hstep
  · rename_i news hnews
    split at hstep
    · cases hstep
    · rename_i hcheck
      cases hstep
      exact h.rewriteVersions hschema hcomplete
        (fun p hp => hkept p.1 p.2 (ExceptFold.eq_ok_of_mem_zip hnews p hp))
        (fun row hrow => isVisible_of_mem_rowsAt hrow) (ExceptFold.length_mapM hnews)
        env.tagId_ne_zero hcheck

theorem runPending_keysUnique (hschema : env.schema.WellFormed)
    (hcomplete : LookupComplete env.coll env.holder) {pending : List (Row × Row)}
    (hkept : pending = [] ∨ ∀ values old new, env.rewriteRow assignments values old = .ok new →
      env.schema.KeepsUnchecked env.coll old new) (h : KeysUnique env.coll env.schema rows)
    (hrun : env.runPending assignments pending rows = .ok rows') :
    KeysUnique env.coll env.schema rows' := by
  induction pending generalizing rows with
  | nil =>
    rw [runPending] at hrun
    cases hrun
    exact h
  | cons update pending ih =>
    obtain ⟨existing, values⟩ := update
    rw [runPending] at hrun
    split at hrun
    · cases hrun
    · rename_i rows₁ hstep
      have hkept := hkept.resolve_left (List.cons_ne_nil _ _)
      exact ih (.inr hkept) (execUpdate_keysUnique h hschema hcomplete (hkept values) hstep) hrun

theorem pending_repeatsEarlierRow {validateOnly : Bool}
    (hstep : env.repeatsEarlierRow form validateOnly row prep = .ok prep') :
    prep'.pending = prep.pending := by
  simp only [repeatsEarlierRow] at hstep
  split at hstep
  · split_ifs at hstep
    · cases hstep
      rfl
    · rw [finishRow_eq_ok hstep]
  · split at hstep
    · rw [finishRow_eq_ok hstep]
    · split at hstep
      · rw [finishRow_eq_ok hstep]
      · split at hstep
        · cases hstep
          rfl
        · split_ifs at hstep
          split at hstep
          · cases hstep
          · cases hstep
            rfl
        · cases hstep

/-- Only rows with a key of a row of the table are left to an update. -/
theorem pending_prepareRows {written : List Row} {rowNo : Nat}
    (hunhit : ∀ row ∈ env.filled rowNo written, env.tableHits rows row = [])
    (hrun : env.prepareRows rows form false rowNo written prep = .ok prep') :
    prep'.pending = prep.pending := by
  induction written generalizing rowNo prep with
  | nil =>
    rw [prepareRows] at hrun
    cases hrun
    rfl
  | cons w written ih =>
    rw [prepareRows] at hrun
    split at hrun
    · cases hrun
    · rename_i row hfill
      rw [filled_cons hfill, List.forall_mem_cons] at hunhit
      split at hrun
      · cases hrun
      · rename_i prep₁ hrow
        rw [ih hunhit.2 hrun]
        simp only [insertRow, hunhit.1, verdict_nil] at hrow
        split at hrow
        · split_ifs at hrow
          cases hrow
          rfl
        · have hpending := pending_repeatsEarlierRow hrow
          exact hpending

/-- Under a composite primary key the UNIQUE columns of the table with the prepared rows are those
of the rows that enter. -/
theorem filterMap_prepared (hschema : env.schema.WellFormed)
    (hcomposite : env.schema.isCompositePk) (hform : form.isReplace = false)
    {written : List Row} (hrun : env.prepareRows rows form false 1 written {} = .ok prep)
    {spec : KeySpec} (hspec : spec ∈ env.schema.uniqueColumnSpecs) :
    (liveVersions (rows ++ prep.prepared)).filterMap (rowKey env.coll spec) =
      (liveVersions rows ++ env.entering [] [] (env.unhit rows (env.filled 1 written))).filterMap
        (rowKey env.coll spec) := by
  rw [prepareRows_composite hcomposite hform hrun, show ({} : Prep).prepared = [] from rfl,
    List.nil_append, liveVersions_append, liveVersions_map_tag, List.filterMap_append,
    filterMap_tag hschema (mem_keySpecs_iff.mpr (.inr (.inl hspec))), ← List.filterMap_append]

theorem execInsertInner_keysUnique {written : List Row} (h : KeysUnique env.coll env.schema rows)
    (hschema : env.schema.WellFormed) (hcomplete : LookupComplete env.coll env.holder)
    (hform : form.isReplace = false) (hok : env.execInsertInner rows form written = .ok rows') :
    (env.RowsGuarded rows form written → KeysUnique env.coll env.schema rows') ∧
      ((∀ assignments, form ≠ .update assignments) → KeysUnique env.coll env.schema rows' →
        env.RowsGuarded rows form written) := by
  rw [execInsertInner] at hok
  split at hok
  · cases hok
  rename_i prep hprep
  refine ⟨fun hguard => ?_, fun hplain hunique => ⟨fun hcomposite spec hspec => ?_,
    fun _ hf => absurd hf (hplain _), fun _ hf => absurd hf (hplain _)⟩⟩
  · have hprepared := (Prepared.init h).prepareRows hschema hcomplete hform hguard.inPlace hprep
    have hafter := hprepared.keysUnique fun hcomposite spec hspec => by
      rw [filterMap_prepared hschema hcomposite hform hprep hspec]
      exact hguard.uniqueUnderComposite hcomposite spec hspec
    split at hok
    · rename_i assignments
      refine runPending_keysUnique hschema hcomplete ?_ hafter hok
      exact (hguard.updates assignments rfl).imp_left fun hunhit => pending_prepareRows hunhit hprep
    · cases hok
      exact hafter
  · rw [← filterMap_prepared hschema hcomposite hform hprep hspec]
    split at hok
    · exact absurd rfl (hplain _)
    · cases hok
      exact hunique spec (mem_keySpecs_iff.mpr (.inr (.inl hspec)))

theorem liveVersions_map_stamped {id : Nat} (hid : id ≠ 0) (hit : Row → Bool) (rows : List Row) :
    liveVersions (rows.map fun row => if hit row then row.set "_xmax" (stdToString id) else row) =
      liveVersions (rows.filter fun row => !hit row) := by
  induction rows with
  | nil => rfl
  | cons row rows ih =>
    simp only [liveVersions] at ih ⊢
    by_cases hhit : hit row = true
    · simp [hhit, isVisible_stamped hid, ih]
    · simp [hhit, List.filter_cons, ih]

theorem liveVersions_deleteWhere {cond : List (String × String)}
    (h : env.deleteWhere rows cond = .ok rows') :
    liveVersions rows' =
      (liveVersions rows).filter fun row => !cond.all fun e => env.whereEq row e.1 e.2 := by
  have hleft : liveVersions (rows.filter fun row =>
      !(isVisible row && cond.all fun e => env.whereEq row e.1 e.2)) =
      (liveVersions rows).filter fun row => !cond.all fun e => env.whereEq row e.1 e.2 := by
    rw [liveVersions, liveVersions, List.filter_filter, List.filter_filter]
    refine List.filter_congr fun row _ => ?_
    cases isVisible row <;> simp
  simp only [deleteWhere] at h
  split at h
  · cases h
  · split at h
    · cases h
      rw [liveVersions_map_stamped env.tagId_ne_zero]
      exact hleft
    · cases h
      exact hleft

theorem liveVersions_deleteAll {conds : List (List (String × String))}
    (h : env.deleteAll conds rows = .ok rows') :
    liveVersions rows' = (liveVersions rows).filter fun row =>
      !conds.any fun cond => cond.all fun e => env.whereEq row e.1 e.2 := by
  induction conds generalizing rows with
  | nil =>
    rw [deleteAll] at h
    cases h
    simp
  | cons cond conds ih =>
    rw [deleteAll] at h
    split at h
    · cases h
    · rename_i rows₁ hstep
      rw [ih h, liveVersions_deleteWhere hstep, List.filter_filter]
      refine List.filter_congr fun row _ => ?_
      rw [List.any_cons, Bool.not_or, Bool.and_comm]

theorem rowsGuarded_congr {found written : List Row}
    (hlive : liveVersions rows = liveVersions found) :
    env.RowsGuarded rows .abort written ↔ env.RowsGuarded found .abort written := by
  have hiff : ∀ rows', env.RowsGuarded rows' .abort written ↔
      (env.schema.isCompositePk → ∀ spec ∈ env.schema.uniqueColumnSpecs,
        ((liveVersions rows' ++ env.entering [] []
          (env.unhit rows' (env.filled 1 written))).filterMap (rowKey env.coll spec)).Nodup) :=
    fun rows' => ⟨fun h => h.uniqueUnderComposite, fun h => ⟨h, nofun, nofun⟩⟩
  rw [hiff, hiff]
  refine forall_congr' fun hcomposite => ?_
  simp only [unhit, tableHits, hcomposite, if_true, compositePkHits, uniqueKeyHits, hlive]

/-- A table in a database without further conditions. -/
def plainEnv (schema : TableSchema) : InsertEnv where
  coll := asciiCollation
  schema := schema
  holder := scanHolder asciiCollation
  fill := fun _ _ written => .ok written
  rowCheck := fun _ _ => none
  coerce := fun _ value => .ok value
  whereEq := fun row col value => asciiCollation.equal (cell row col) value
  rewriteRow := fun assignments values old =>
    .ok (assignments.foldl (fun row a => row.set a.1 (a.2 values row)) old)
  orders := fun _ => [[]]
  deleteRefused := fun _ _ => none
  inTxn := false
  tagId := 5
  tagId_ne_zero := by decide

/-- `seats(hall, no, code UNIQUE, PRIMARY KEY (hall, no))`. -/
def seatsSchema : TableSchema :=
  ⟨[⟨"hall", true, false⟩, ⟨"no", true, false⟩, ⟨"code", false, true⟩], ["hall", "no"], []⟩

theorem usersSchema_wellFormed : usersSchema.WellFormed :=
  ⟨by decide, by decide, by decide⟩

/-- ON DUPLICATE KEY UPDATE of a row that is about to be inserted gives it the key of another. -/
example : ((plainEnv usersSchema).execInsert [] (.update [("id", fun _ _ => "2")])
    [Row.ofCells [("id", "1"), ("mail", "a")], Row.ofCells [("id", "2"), ("mail", "b")],
      Row.ofCells [("id", "1"), ("mail", "c")]]).toOption.map
      (fun rows' => decide (KeysUnique asciiCollation usersSchema rows')) = some false := by
  decide

end InsertEnv

end RusqlEngine
