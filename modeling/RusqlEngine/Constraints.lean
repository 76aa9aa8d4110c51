import RusqlEngine.AlterAllOrNothing
import RusqlEngine.UniqueCheckExact

/-!
# The constraints that a schema declares

A schema keeps its constraints in flags of its columns, the columns of its primary key, its UNIQUE
keys, CHECK texts and the foreign keys of its columns. Here they are one list of constraints and one
of references, each with the columns it names and with what it asks of the cells of the live rows.
-/

namespace RusqlEngine.Ddl

/-- NOT NULL, a key, or a CHECK. A primary key is a key none of whose columns is NULL. -/
inductive Constraint
  | notNull (column : String)
  | unique (columns : List String)
  | check (expr : String)
deriving DecidableEq, Repr

/-- A foreign key: the column that it is stored with, the column that it names, its parent. -/
structure Reference where
  owner : String
  column : String
  refTable : String
  refColumn : String
deriving DecidableEq, Repr

/-- The constraints that are stored with a column. -/
def ColumnDef.constraints (composite : Bool) (c : ColumnDef) : List Constraint :=
  (if c.notNull || c.primaryKey then [.notNull c.name] else []) ++
    (if c.unique || (c.primaryKey && !composite) then [.unique [c.name]] else []) ++
    (c.checkExpr.map Constraint.check).toList

def ColumnDef.references (c : ColumnDef) : List Reference :=
  c.foreignKeys.map fun fk => ⟨c.name, fk.column, fk.refTable, fk.refColumn⟩

namespace TableSchema

def columnNames (schema : TableSchema) : List String :=
  schema.columns.map (·.name)

def isComposite (schema : TableSchema) : Bool :=
  decide (1 < schema.primaryKeyColumns.length)

/-- The constraints that are stored with the table. -/
def tableConstraints (schema : TableSchema) : List Constraint :=
  schema.primaryKeyColumns.map .notNull ++
    (if schema.isComposite then [.unique schema.primaryKeyColumns] else []) ++
    schema.uniqueKeys.map (fun k => .unique k.columns) ++
    schema.checkConstraints.map (fun k => .check k.expression)

def constraints (schema : TableSchema) : List Constraint :=
  schema.columns.flatMap (·.constraints schema.isComposite) ++ schema.tableConstraints

def references (schema : TableSchema) : List Reference :=
  schema.columns.flatMap (·.references)

end TableSchema

section

/-- The columns that a constraint names; `names` reads those of a CHECK text. -/
def Constraint.columns (names : String → List String) : Constraint → List String
  | .notNull column => [column]
  | .unique columns => columns
  | .check expr => names expr

/-- The live rows satisfy the constraint. -/
def Constraint.Holds (env : AlterEnv) (rows : List Row) : Constraint → Prop
  | .notNull column => ∀ row ∈ liveVersions rows, (row.find column).getD executorNull ≠ executorNull
  | .unique columns => ((liveVersions rows).filterMap (uniqueKeyOf env.coll columns)).Nodup
  | .check expr => ∀ row ∈ liveVersions rows, env.evalCheck expr row

/-- A reference names its own column and a column of its parent, and no live row is an orphan. -/
structure Reference.Holds (env : AlterEnv) (db : Db) (rows : List Row) (r : Reference) : Prop where
  ownColumn : r.column = r.owner
  parentColumn : ∃ p, db.tables r.refTable = some p ∧ r.refColumn ∈ p.schema.columnNames
  noOrphan : ∀ row ∈ liveVersions rows, ∀ v, row.find r.column = some v →
    (db.parents env.coll).fkChildViolation r.refTable r.refColumn v = none

/-- The evaluation of a CHECK reads the cells of the columns that its text names. -/
def ReadsNamed (env : AlterEnv) (names : String → List String) : Prop :=
  ∀ expr row row', (∀ c ∈ names expr, row.find c = row'.find c) →
    env.evalCheck expr row = env.evalCheck expr row'

variable (env : AlterEnv) (names : String → List String)

/-- A table whose constraints name columns that are there and hold: distinct column names, none the
stamp of a version, and a live row with a cell for each. -/
structure TableSound (db : Db) (t : Table) : Prop where
  distinct : t.schema.columnNames.Nodup
  stampFree : "_xmax" ∉ t.schema.columnNames
  celled : ∀ row ∈ liveVersions t.rows, ∀ c ∈ t.schema.columnNames, row.find c ≠ none
  named : ∀ k ∈ t.schema.constraints, ∀ c ∈ k.columns names, c ∈ t.schema.columnNames
  holds : ∀ k ∈ t.schema.constraints, k.Holds env t.rows
  refers : ∀ r ∈ t.schema.references, r.Holds env db t.rows

/-- The constraints of a table are true, and so are the foreign keys of any table that refer to
it. -/
structure SoundAt (db : Db) (table : String) : Prop where
  own : ∀ t, db.tables table = some t → TableSound env names db t
  referring : ∀ name t, db.tables name = some t → ∀ r ∈ t.schema.references,
    r.refTable = table → r.Holds env db t.rows

end

variable {k : Constraint} {r : Reference} {columns : List ColumnDef}

section

variable {schema : TableSchema}

theorem mem_columnNames {name : String} : name ∈ schema.columnNames ↔ schema.has name := by
  rw [has_iff, TableSchema.columnNames, List.mem_map]

theorem mem_constraints : k ∈ schema.constraints ↔
    (∃ c ∈ schema.columns, k ∈ c.constraints schema.isComposite) ∨
      k ∈ schema.tableConstraints := by
  rw [TableSchema.constraints, List.mem_append, List.mem_flatMap]

theorem mem_columnConstraints {composite : Bool} {c : ColumnDef} :
    k ∈ c.constraints composite ↔ ((c.notNull || c.primaryKey) ∧ k = .notNull c.name) ∨
      ((c.unique || (c.primaryKey && !composite)) ∧ k = .unique [c.name]) ∨
      ∃ expr, c.checkExpr = some expr ∧ k = .check expr := by
  rw [ColumnDef.constraints, List.mem_append, List.mem_append, or_assoc]
  cases (c.notNull || c.primaryKey) <;> cases (c.unique || (c.primaryKey && !composite)) <;>
    cases c.checkExpr <;> simp

/-- A column is named by what is stored with it: only the lists of the table and the CHECKs can name
a missing one. -/
theorem named_iff {names : String → List String} :
    (∀ k ∈ schema.constraints, ∀ n ∈ k.columns names, n ∈ schema.columnNames) ↔
      (∀ k ∈ schema.tableConstraints, ∀ n ∈ k.columns names, n ∈ schema.columnNames) ∧
      ∀ c ∈ schema.columns, ∀ expr, c.checkExpr = some expr →
        ∀ n ∈ names expr, n ∈ schema.columnNames := by
  constructor
  · intro h
    refine ⟨fun k hk => h k (mem_constraints.mpr (.inr hk)), fun c hc expr hexpr => ?_⟩
    exact h (.check expr) (mem_constraints.mpr
      (.inl ⟨c, hc, mem_columnConstraints.mpr (.inr (.inr ⟨expr, hexpr, rfl⟩))⟩))
  · rintro ⟨htable, hcheck⟩ k hk n hn
    rcases mem_constraints.mp hk with ⟨c, hc, hkc⟩ | hk
    · rcases mem_columnConstraints.mp hkc with ⟨-, rfl⟩ | ⟨-, rfl⟩ | ⟨expr, hexpr, rfl⟩
      · rw [List.mem_singleton.mp hn]
        exact List.mem_map_of_mem hc
      · rw [List.mem_singleton.mp hn]
        exact List.mem_map_of_mem hc
      · exact hcheck c hc expr hexpr n hn
    · exact htable k hk n hn

theorem mem_references : r ∈ schema.references ↔
    ∃ c ∈ schema.columns, ∃ fk ∈ c.foreignKeys,
      r = ⟨c.name, fk.column, fk.refTable, fk.refColumn⟩ := by
  simp [TableSchema.references, ColumnDef.references, eq_comm]

theorem owner_mem_columnNames (h : r ∈ schema.references) : r.owner ∈ schema.columnNames := by
  obtain ⟨c, hc, fk, -, rfl⟩ := mem_references.mp h
  exact List.mem_map_of_mem hc

theorem constraints_perm (h : columns.Perm schema.columns) :
    { schema with columns := columns }.constraints.Perm schema.constraints :=
  (h.flatMap_right _).append_right _

theorem references_perm (h : columns.Perm schema.columns) :
    { schema with columns := columns }.references.Perm schema.references :=
  h.flatMap_right _

theorem columnNames_perm (h : columns.Perm schema.columns) :
    { schema with columns := columns }.columnNames.Perm schema.columnNames :=
  h.map _

end

section

variable {env : AlterEnv} {names : String → List String} {db : Db} {rows rows' : List Row}

/-- Versions that stay live or ended, with the same cells in the columns of the kind. -/
def Alike (p : String → Prop) (rows rows' : List Row) : Prop :=
  List.Forall₂ (fun r r' => isVisible r' = isVisible r ∧ ∀ c, p c → r'.find c = r.find c) rows rows'

theorem map_liveVersions_eq {γ : Type} {R : Row → Row → Prop} {f g : Row → γ}
    (h : List.Forall₂ (fun r r' => isVisible r' = isVisible r ∧ R r r') rows rows')
    (hread : ∀ r r', R r r' → g r' = f r) :
    (liveVersions rows').map g = (liveVersions rows).map f := by
  induction h with
  | nil => rfl
  | cons hr _ ih =>
    rename_i r r' _ _ _
    simp only [liveVersions] at ih ⊢
    rw [List.filter_cons, List.filter_cons, hr.1]
    cases isVisible r with
    | false => exact ih
    | true => rw [if_pos rfl, if_pos rfl, List.map_cons, List.map_cons, ih, hread _ _ hr.2]

variable {p : String → Prop}

theorem Alike.map_eq {γ : Type} {f : Row → γ} (h : Alike p rows rows')
    (hread : ∀ r r' : Row, (∀ c, p c → r'.find c = r.find c) → f r' = f r) :
    (liveVersions rows').map f = (liveVersions rows).map f :=
  map_liveVersions_eq h hread

theorem Alike.find_eq {c : String} (h : Alike p rows rows') (hc : p c) :
    (liveVersions rows').map (·.find c) = (liveVersions rows).map (·.find c) :=
  h.map_eq fun _ _ hcells => hcells c hc

theorem alike_map {f : Row → Row} (hstamp : p "_xmax") (hf : ∀ r c, p c → (f r).find c = r.find c)
    (rows : List Row) : Alike p rows (rows.map f) := by
  rw [Alike, List.forall₂_map_right_iff, List.forall₂_same]
  intro r _
  refine ⟨?_, hf r⟩
  rw [isVisible, isVisible, hf r _ hstamp]

theorem liveVersions_map {f : Row → Row} (hf : ∀ r, isVisible (f r) = isVisible r)
    (rows : List Row) : liveVersions (rows.map f) = (liveVersions rows).map f := by
  rw [liveVersions, liveVersions, List.filter_map]
  congr 1
  exact List.filter_congr fun r _ => hf r

theorem notNull_holds_iff {column column' : String}
    (h : (liveVersions rows').map (·.find column') = (liveVersions rows).map (·.find column)) :
    (Constraint.notNull column').Holds env rows' ↔ (Constraint.notNull column).Holds env rows := by
  have hcells : ∀ (rs : List Row) (c : String), (Constraint.notNull c).Holds env rs ↔
      ∀ cell ∈ (liveVersions rs).map (·.find c), cell.getD executorNull ≠ executorNull := by
    intro rs c
    rw [List.forall_mem_map]
    rfl
  rw [hcells, hcells, h]

theorem celled_of_map_eq {column column' : String}
    (h : (liveVersions rows').map (·.find column') = (liveVersions rows).map (·.find column))
    (hcells : ∀ row ∈ liveVersions rows, row.find column ≠ none) :
    ∀ row ∈ liveVersions rows', row.find column' ≠ none := by
  have hall : ∀ cell ∈ (liveVersions rows').map (·.find column'), cell ≠ none := by
    rw [h]
    exact List.forall_mem_map.mpr hcells
  exact fun row hrow => hall _ (List.mem_map_of_mem hrow)

theorem unique_holds_iff {columns columns' : List String}
    (h : (liveVersions rows').map (keyValues columns') =
      (liveVersions rows).map (keyValues columns)) :
    (Constraint.unique columns').Holds env rows' ↔ (Constraint.unique columns).Holds env rows := by
  have hkeys : ∀ (rs : List Row) (cs : List String), (liveVersions rs).filterMap
      (uniqueKeyOf env.coll cs) = ((liveVersions rs).map (keyValues cs)).filterMap fun values =>
        if values.contains executorNull then none
        else some (LengthPrefix.encode (values.map env.coll.key)) := by
    intro rs cs
    rw [List.filterMap_map]
    rfl
  rw [Constraint.Holds, Constraint.Holds, hkeys, hkeys, h]

theorem Constraint.holds_iff_of_alike (hreads : ReadsNamed env names) (h : Alike p rows rows')
    (hk : ∀ c ∈ k.columns names, p c) : k.Holds env rows' ↔ k.Holds env rows := by
  cases k with
  | notNull column => exact notNull_holds_iff (h.find_eq (hk column (List.mem_singleton_self _)))
  | unique columns =>
    apply unique_holds_iff
    refine h.map_eq fun r r' hcells => List.map_congr_left fun c hc => ?_
    rw [hcells c (hk c hc)]
  | check expr =>
    have heval : (liveVersions rows').map (env.evalCheck expr) =
        (liveVersions rows).map (env.evalCheck expr) :=
      h.map_eq fun r r' hcells => hreads expr r' r fun c hc => hcells c (hk c hc)
    have hall : ∀ rs : List Row, (Constraint.check expr).Holds env rs ↔
        ∀ b ∈ (liveVersions rs).map (env.evalCheck expr), b := by
      intro rs
      rw [List.forall_mem_map]
      rfl
    rw [hall, hall, heval]

theorem fkChildViolation_eq_none_iff {coll : Collation} {refTable refColumn value : String} :
    (db.parents coll).fkChildViolation refTable refColumn value = none ↔ value = executorNull ∨
      ∃ p, db.tables refTable = some p ∧
        ∃ text, some text ∈ (liveVersions p.rows).map (·.find refColumn) ∧
          coll.equal text value := by
  rw [CascadeDb.fkChildViolation]
  by_cases hnull : value = executorNull
  · simp [hnull]
  · have htables : (db.parents coll).tables refTable = (db.tables refTable).map (·.rows) := rfl
    rw [if_neg hnull, htables]
    cases hp : db.tables refTable with
    | none => simp [hnull]
    | some p =>
      simp only [Option.map_some, hnull, false_or, Option.some.injEq, exists_eq_left',
        List.mem_map, liveVersions, List.mem_filter]
      split
      · rename_i hany
        obtain ⟨row, hrow, hcell⟩ := List.any_eq_true.mp hany
        rw [Bool.and_eq_true, Option.any_eq_true] at hcell
        obtain ⟨hlive, text, htext, heq⟩ := hcell
        exact iff_of_true rfl ⟨text, ⟨row, ⟨hrow, hlive⟩, htext⟩, heq⟩
      · rename_i hany
        refine iff_of_false (by simp) ?_
        rintro ⟨text, ⟨row, ⟨hrow, hlive⟩, htext⟩, heq⟩
        apply hany
        refine List.any_eq_true.mpr ⟨row, hrow, ?_⟩
        rw [hlive, htext, Bool.true_and, Option.any_some]
        exact heq

/-- A reference is about the cells of its column and those of its parent. -/
theorem Reference.Holds.congr {db' : Db} {r' : Reference} (h : r.Holds env db rows)
    (howner : r'.owner = r.owner) (hcolumn : r'.column = r.column)
    (hrows : (liveVersions rows').map (·.find r'.column) =
      (liveVersions rows).map (·.find r.column))
    (hparent : ∀ p, db.tables r.refTable = some p → r.refColumn ∈ p.schema.columnNames →
      ∃ p', db'.tables r'.refTable = some p' ∧ r'.refColumn ∈ p'.schema.columnNames ∧
        (liveVersions p'.rows).map (·.find r'.refColumn) =
          (liveVersions p.rows).map (·.find r.refColumn)) :
    r'.Holds env db' rows' := by
  obtain ⟨p, hp, hcol⟩ := h.parentColumn
  obtain ⟨p', hp', hcol', hcells⟩ := hparent p hp hcol
  refine ⟨by rw [hcolumn, howner, h.ownColumn], ⟨p', hp', hcol'⟩, fun row hrow v hv => ?_⟩
  have hmem : some v ∈ (liveVersions rows).map (·.find r.column) := by
    rw [← hrows]
    exact List.mem_map.mpr ⟨row, hrow, hv⟩
  obtain ⟨row₀, hrow₀, hv₀⟩ := List.mem_map.mp hmem
  rcases fkChildViolation_eq_none_iff.mp (h.noOrphan row₀ hrow₀ v hv₀) with hnull | ⟨q, hq, htext⟩
  · exact fkChildViolation_eq_none_iff.mpr (.inl hnull)
  · obtain rfl : p = q := Option.some.inj (hp.symm.trans hq)
    rw [← hcells] at htext
    exact fkChildViolation_eq_none_iff.mpr (.inr ⟨p', hp', htext⟩)

end

section

variable {env : AlterEnv} {names : String → List String} {db : Db} {table : String} {t t' : Table}

theorem Db.put_tables_of_ne {name : String} (h : name ≠ table) :
    (db.put table t').tables name = db.tables name :=
  Function.update_of_ne h ..

theorem Db.put_put (db : Db) (table : String) (t t' : Table) :
    (db.put table t).put table t' = db.put table t' := by
  rw [Db.put, Db.put, Db.put, Function.update_idem]

/-- A reference that holds goes on to hold when the table keeps the cells that it reads. -/
theorem Reference.Holds.put {q : String → Prop} {rows rows' : List Row} (h : r.Holds env db rows)
    (ht : db.tables table = some t) (halike : Alike q t.rows t'.rows)
    (hmem : ∀ c ∈ t.schema.columnNames, q c → c ∈ t'.schema.columnNames)
    (hrows : (liveVersions rows').map (·.find r.column) = (liveVersions rows).map (·.find r.column))
    (hread : r.refTable = table → r.refColumn ∈ t.schema.columnNames → q r.refColumn) :
    r.Holds env (db.put table t') rows' := by
  refine h.congr rfl rfl hrows fun p hp hcol => ?_
  by_cases href : r.refTable = table
  · rw [href] at hp
    obtain rfl : t = p := Option.some.inj (ht.symm.trans hp)
    have hq := hread href hcol
    exact ⟨t', by rw [href, Db.put_tables_self], hmem _ hcol hq, halike.find_eq hq⟩
  · exact ⟨p, by rw [Db.put_tables_of_ne href, hp], hcol, rfl⟩

theorem soundAt_congr {db' : Db} (h : db'.tables = db.tables) :
    SoundAt env names db' table ↔ SoundAt env names db table := by
  have hrefs : ∀ {r : Reference} {rows : List Row},
      r.Holds env db' rows ↔ r.Holds env db rows := by
    intro r rows
    constructor
    · exact fun hr => hr.congr rfl rfl rfl fun p hp hcol => ⟨p, by rw [← h, hp], hcol, rfl⟩
    · exact fun hr => hr.congr rfl rfl rfl fun p hp hcol => ⟨p, by rw [h, hp], hcol, rfl⟩
  constructor
  · intro hs
    refine ⟨fun t ht => ?_, fun name t ht r hr href => ?_⟩
    · have hown := hs.own t (by rw [h, ht])
      exact { hown with refers := fun r hr => hrefs.mp (hown.refers r hr) }
    · exact hrefs.mp (hs.referring name t (by rw [h, ht]) r hr href)
  · intro hs
    refine ⟨fun t ht => ?_, fun name t ht r hr href => ?_⟩
    · have hown := hs.own t (by rw [← h, ht])
      exact { hown with refers := fun r hr => hrefs.mpr (hown.refers r hr) }
    · exact hrefs.mpr (hs.referring name t (by rw [← h, ht]) r hr href)

theorem soundAt_put_iff : SoundAt env names (db.put table t') table ↔
    TableSound env names (db.put table t') t' ∧
      ∀ name t₂, name ≠ table → db.tables name = some t₂ → ∀ r ∈ t₂.schema.references,
        r.refTable = table → r.Holds env (db.put table t') t₂.rows := by
  constructor
  · intro h
    refine ⟨h.own t' (Db.put_tables_self ..), fun name t₂ hne ht₂ => ?_⟩
    exact h.referring name t₂ (by rw [Db.put_tables_of_ne hne, ht₂])
  · rintro ⟨hown, hothers⟩
    refine ⟨fun t₂ ht₂ => ?_, fun name t₂ ht₂ r hr href => ?_⟩
    · rw [Db.put_tables_self] at ht₂
      obtain rfl : t' = t₂ := Option.some.inj ht₂
      exact hown
    · by_cases hname : name = table
      · rw [hname, Db.put_tables_self] at ht₂
        obtain rfl : t' = t₂ := Option.some.inj ht₂
        exact hown.refers r hr
      · rw [Db.put_tables_of_ne hname] at ht₂
        exact hothers name t₂ hname ht₂ r hr href

/-- The rows and the column names stay: what is declared then was declared before or holds. -/
theorem SoundAt.extend (h : SoundAt env names db table) (ht : db.tables table = some t)
    {schema : TableSchema} (hnames : schema.columnNames.Perm t.schema.columnNames)
    (hcon : ∀ k ∈ schema.constraints, k ∈ t.schema.constraints ∨
      (∀ c ∈ k.columns names, c ∈ t.schema.columnNames) ∧ k.Holds env t.rows)
    (href : ∀ r ∈ schema.references, r ∈ t.schema.references ∨ r.Holds env db t.rows) :
    SoundAt env names (db.put table { t with schema := schema }) table := by
  have hown := h.own t ht
  have hput : ∀ {r : Reference} {rows : List Row}, r.Holds env db rows →
      r.Holds env (db.put table { t with schema := schema }) rows := by
    intro r rows hr
    exact hr.put ht (List.forall₂_same.mpr fun _ _ => ⟨rfl, fun _ (_ : True) => rfl⟩)
      (fun _ hc _ => hnames.mem_iff.mpr hc) rfl fun _ _ => trivial
  refine soundAt_put_iff.mpr ⟨⟨?_, ?_, ?_, ?_, ?_, ?_⟩, ?_⟩
  · exact hnames.nodup_iff.mpr hown.distinct
  · exact fun hmem => hown.stampFree (hnames.mem_iff.mp hmem)
  · exact fun row hrow c hc => hown.celled row hrow c (hnames.mem_iff.mp hc)
  · intro k hk c hc
    apply hnames.mem_iff.mpr
    rcases hcon k hk with hold | hnew
    · exact hown.named k hold c hc
    · exact hnew.1 c hc
  · intro k hk
    rcases hcon k hk with hold | hnew
    · exact hown.holds k hold
    · exact hnew.2
  · intro r hr
    rcases href r hr with hold | hnew
    · exact hput (hown.refers r hold)
    · exact hput hnew
  · exact fun name t₂ _ ht₂ r hr hr' => hput (h.referring name t₂ ht₂ r hr hr')

theorem SoundAt.narrow (h : SoundAt env names db table) (ht : db.tables table = some t)
    {schema : TableSchema} (hnames : schema.columnNames.Perm t.schema.columnNames)
    (hcon : schema.constraints ⊆ t.schema.constraints)
    (href : schema.references ⊆ t.schema.references) :
    SoundAt env names (db.put table { t with schema := schema }) table :=
  h.extend ht hnames (fun _ hk => .inl (hcon hk)) fun _ hr => .inl (href hr)

theorem soundAt_put_perm_iff (hperm : columns.Perm t.schema.columns) :
    SoundAt env names (db.put table ⟨{ t.schema with columns := columns }, t.rows⟩) table ↔
      SoundAt env names (db.put table t) table := by
  constructor
  · intro h
    have hback := h.narrow (t := ⟨{ t.schema with columns := columns }, t.rows⟩)
      (Db.put_tables_self ..) (columnNames_perm hperm).symm
      (constraints_perm hperm).symm.subset (references_perm hperm).symm.subset
    rwa [Db.put_put] at hback
  · intro h
    have hthere := h.narrow (Db.put_tables_self ..) (columnNames_perm hperm)
      (constraints_perm hperm).subset (references_perm hperm).subset
    rwa [Db.put_put] at hthere

end

end RusqlEngine.Ddl
