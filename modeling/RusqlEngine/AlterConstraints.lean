import RusqlEngine.Constraints

/-!
# When ALTER TABLE keeps the constraints true

An action keeps the constraints of the table true exactly when it is `Allowed` on the table: DROP
and RENAME COLUMN look at no constraint that names the column, ADD COLUMN not at the column's own,
MODIFY COLUMN not at the keys, CHECKs and foreign keys the values are in.
-/

namespace RusqlEngine.Ddl

open Constraint Function

/-- What ADD COLUMN writes into the rows that are there. -/
def fillValue (column : ColumnDef) : String :=
  match column.defaultValue with
  | some d => if d = "__NULL_DEFAULT__" then executorNull else d
  | none => executorNull

/-- What ADD COLUMN keeps of a column definition. -/
def newColumn (column : ColumnDef) : ColumnDef :=
  { column with
    primaryKey := false, autoIncrement := false, foreignKeys := [], onUpdateNow := false }

/-- The table with the column at its end. -/
def Table.grown (t : Table) (column : ColumnDef) : Table :=
  ⟨{ t.schema with columns := t.schema.columns ++ [newColumn column] },
    t.rows.map fun row => row.set column.name (fillValue column)⟩

/-- The table without the column. -/
def Table.without (t : Table) (name : String) : Table :=
  ⟨{ t.schema with columns := t.schema.columns.filter (·.name != name) },
    t.rows.map fun row => row.erase name⟩

/-- The table with the new definition of the column and the rows converted to it. -/
def Table.modified (t : Table) (column : ColumnDef) (rows : List Row) : Table :=
  ⟨{ t.schema with
      columns := changeFirst (·.name == column.name) (modifiedDef column) t.schema.columns },
    rows⟩

/-- The rows with the values of the column converted to its new definition. -/
def Converts (env : AlterEnv) (t : Table) (column : ColumnDef) (rows : List Row) : Prop :=
  ∃ current, t.schema.find column.name = some current ∧
    convertRows env
      { current with dataType := column.dataType, isUnsigned := column.isUnsigned } column 0
      t.rows = .ok rows

section

/-- A key comes to refer to the table when it refers to its new name, or to a name that differs
from its old one in case only. -/
def ComesToRefer (table newName : String) (r : Reference) : Prop :=
  sameName r.refTable table = true ∨ r.refTable = newName

variable (env : AlterEnv) (names : String → List String) (db : Db) (table : String) (t : Table)

/-- A reference of the table `child` is from the column or to the column. -/
def Touches (column child : String) (r : Reference) : Prop :=
  (child = table ∧ r.owner = column) ∨ (r.refTable = table ∧ r.refColumn = column)

/-- The column that is added comes with constraints that the filled rows meet. -/
def AddAllowed (column : ColumnDef) : Prop :=
  column.name ≠ "_xmax" ∧
    (column.notNull → fillValue column ≠ executorNull ∨ liveVersions t.rows = []) ∧
    (column.unique → fillValue column = executorNull ∨ (liveVersions t.rows).length ≤ 1) ∧
    ∀ expr, column.checkExpr = some expr →
      (∀ c ∈ names expr, c ∈ t.schema.columnNames ∨ c = column.name) ∧
        ∀ row ∈ liveVersions t.rows,
          env.evalCheck expr (row.set column.name (fillValue column))

/-- No constraint that stays names the column, and no foreign key that stays refers to it. -/
def DropAllowed (name : String) : Prop :=
  (∀ k ∈ (t.without name).schema.constraints, name ∉ k.columns names) ∧
    ∀ child t', db.tables child = some t' → ∀ r ∈ t'.schema.references, r.refTable = table →
      r.refColumn = name → child = table ∧ r.owner = name

/-- The column is in no key over several columns, in no CHECK and in no foreign key. -/
def RenameAllowed (old new : String) : Prop :=
  new ≠ "_xmax" ∧ (old = new ∨
    (∀ k ∈ t.schema.tableConstraints, old ∉ k.columns names) ∧
    (∀ c ∈ t.schema.columns, ∀ expr, c.checkExpr = some expr → old ∉ names expr) ∧
    ∀ child t', db.tables child = some t' → ∀ r ∈ t'.schema.references,
      ¬ Touches table old child r)

/-- The values, as they are converted, meet what names the column. -/
def ModifyAllowed (column : ColumnDef) : Prop :=
  ∀ rows, Converts env t column rows →
    (∀ k ∈ (t.modified column rows).schema.constraints, column.name ∈ k.columns names →
      k.Holds env rows) ∧
    ∀ child t', (db.put table (t.modified column rows)).tables child = some t' →
      ∀ r ∈ t'.schema.references, Touches table column.name child r →
        r.Holds env (db.put table (t.modified column rows)) t'.rows

/-- The case in which an action keeps the constraints of the table `t` true. -/
def Allowed : AlterAction → Prop
  | .addColumn column _ => AddAllowed env names t column
  | .dropColumn name => DropAllowed names db table t name
  | .renameColumn old new => RenameAllowed names db table t old new
  | .modifyColumn column _ => ModifyAllowed env names db table t column
  | .changeColumn old column _ =>
    if old = column.name then ModifyAllowed env names db table t column
    else RenameAllowed names db table t old column.name ∧
      ModifyAllowed env names (db.put table (t.renamed old column.name)) table
        (t.renamed old column.name) column
  | .renameTable newName =>
    ∀ child t', db.tables child = some t' → ∀ r ∈ t'.schema.references,
      ComesToRefer table newName r → { r with refTable := table }.Holds env db t'.rows
  | .addForeignKey name fk =>
    (∃ p, db.tables (addedKey table t name fk).refTable = some p ∧
      fk.refColumn ∈ p.schema.columnNames) ∧
      (env.skipFkChecks →
        orphan env db (addedKey table t name fk) fk.column t.rows = none)
  | .addCheckConstraint _ expr => ∀ c ∈ names expr, c ∈ t.schema.columnNames
  | _ => True

end

variable {p : ColumnDef → Bool} {c : ColumnDef} {schema : TableSchema} {columns : List ColumnDef}
  {position : Option ColumnPosition} {column : ColumnDef}

theorem mem_changeFirst {f : ColumnDef → ColumnDef} :
    ∀ {columns : List ColumnDef}, c ∈ changeFirst p f columns →
      c ∈ columns ∨ ∃ c₀ ∈ columns, p c₀ ∧ c = f c₀
  | [], h => nomatch h
  | c₁ :: cs, h => by
      rw [changeFirst] at h
      split at h
      · rename_i hp
        rcases List.mem_cons.mp h with rfl | hcs
        · exact .inr ⟨c₁, List.mem_cons_self, hp, rfl⟩
        · exact .inl (.tail _ hcs)
      · rcases List.mem_cons.mp h with rfl | hcs
        · exact .inl List.mem_cons_self
        · rcases mem_changeFirst hcs with hold | ⟨c₀, hc₀, hp, rfl⟩
          · exact .inl (.tail _ hold)
          · exact .inr ⟨c₀, List.mem_cons_of_mem _ hc₀, hp, rfl⟩

theorem exists_mem_changeFirst (f : ColumnDef → ColumnDef) :
    ∀ {columns : List ColumnDef}, (∃ c ∈ columns, p c) →
      ∃ c ∈ columns, p c ∧ f c ∈ changeFirst p f columns
  | [], h => by simp at h
  | c₁ :: cs, h => by
      rw [changeFirst]
      by_cases hp : p c₁ = true
      · rw [if_pos hp]
        exact ⟨c₁, List.mem_cons_self, hp, List.mem_cons_self⟩
      · rw [if_neg hp]
        obtain ⟨c, hc, hpc⟩ := h
        have hcs : c ∈ cs := by
          rcases List.mem_cons.mp hc with rfl | hcs
          · exact absurd hpc hp
          · exact hcs
        obtain ⟨c₀, hc₀, hpc₀, hmem⟩ := exists_mem_changeFirst f ⟨c, hcs, hpc⟩
        exact ⟨c₀, List.mem_cons_of_mem _ hc₀, hpc₀, List.mem_cons_of_mem _ hmem⟩

theorem constraints_congr (h : columns.map (·.constraints schema.isComposite) =
      schema.columns.map (·.constraints schema.isComposite)) :
    { schema with columns := columns }.constraints = schema.constraints := by
  have hflat : columns.flatMap (·.constraints schema.isComposite) =
      schema.columns.flatMap (·.constraints schema.isComposite) := by
    rw [List.flatMap_def, List.flatMap_def, h]
  exact congrArg (· ++ schema.tableConstraints) hflat

theorem references_congr (h : columns.map (·.references) = schema.columns.map (·.references)) :
    { schema with columns := columns }.references = schema.references := by
  rw [TableSchema.references, TableSchema.references, List.flatMap_def, List.flatMap_def, h]

theorem insertAfter_perm {name : String} : ∀ {columns : List ColumnDef},
    (∃ c ∈ columns, c.name = name) → (insertAfter name column columns).Perm (column :: columns)
  | [], h => by simp at h
  | c :: cs, h => by
      rw [insertAfter]
      by_cases hc : c.name = name
      · rw [if_pos (by simpa using hc)]
        exact .swap _ _ _
      · rw [if_neg (by simpa using hc)]
        have hcs : ∃ d ∈ cs, d.name = name := by
          obtain ⟨d, hd, hname⟩ := h
          rcases List.mem_cons.mp hd with rfl | hd
          · exact absurd hname hc
          · exact ⟨d, hd, hname⟩
        exact ((insertAfter_perm hcs).cons c).trans (.swap _ _ _)

theorem cons_eraseP_perm : ∀ {columns : List ColumnDef},
    columns.find? p = some c → (c :: columns.eraseP p).Perm columns
  | [], h => nomatch h
  | d :: ds, h => by
      rw [List.find?_cons] at h
      rw [List.eraseP_cons]
      cases hp : p d with
      | true =>
        rw [hp] at h
        obtain rfl : d = c := Option.some.inj h
        exact .refl _
      | false =>
        rw [hp] at h
        exact (List.Perm.swap _ _ _).trans ((cons_eraseP_perm h).cons d)

theorem placed_perm {schema' : TableSchema} {column : String}
    (h : placed schema column position = .ok schema') :
    ∃ columns, columns.Perm schema.columns ∧ schema' = { schema with columns := columns } := by
  cases position with
  | none =>
    obtain rfl : schema = schema' := Except.ok.inj h
    exact ⟨_, .refl _, rfl⟩
  | some position =>
    rw [placed, placeColumn.eq_def] at h
    cases hfind : schema.find column with
    | none =>
      rw [hfind] at h
      cases h
    | some moving =>
      rw [hfind] at h
      have hperm : (moving :: schema.columns.eraseP (·.name == column)).Perm schema.columns :=
        cons_eraseP_perm hfind
      simp only at h
      by_cases hself : position.after = some column
      · rw [if_pos hself] at h
        obtain rfl : schema = schema' := Except.ok.inj h
        exact ⟨_, .refl _, rfl⟩
      rw [if_neg hself] at h
      cases hafter : position.after with
      | none =>
        rw [hafter] at h
        simp only [Option.any_none, Bool.false_eq_true, if_false] at h
        split at h
        · exact ⟨_, hperm, (Except.ok.inj h).symm⟩
        · exact ⟨_, (List.perm_append_singleton _ _).trans hperm, (Except.ok.inj h).symm⟩
      | some after =>
        rw [hafter] at h hself
        simp only [Option.any_some] at h
        by_cases hhas : schema.has after = true
        · rw [if_neg (by simp [hhas])] at h
          split at h
          · exact ⟨_, hperm, (Except.ok.inj h).symm⟩
          · refine ⟨_, (insertAfter_perm ?_).trans hperm, (Except.ok.inj h).symm⟩
            obtain ⟨c, hc, hname⟩ := has_iff.mp hhas
            refine ⟨c, ?_, hname⟩
            have hne : c.name ≠ column := fun heq => hself (by rw [← hname, heq])
            exact (List.mem_eraseP_of_neg (by simpa using hne)).mpr hc
        · rw [if_pos (by simpa using hhas)] at h
          cases h

variable {k : Constraint}

section

variable {env : AlterEnv} {names : String → List String} {db : Db} {table : String} {t : Table}
  {column : ColumnDef}

theorem columnNames_grown :
    (t.grown column).schema.columnNames = t.schema.columnNames ++ [column.name] := by
  rw [Table.grown, TableSchema.columnNames, List.map_append]
  rfl

theorem mem_constraints_grown : k ∈ (t.grown column).schema.constraints ↔
    k ∈ t.schema.constraints ∨ k ∈ (newColumn column).constraints t.schema.isComposite := by
  rw [mem_constraints, mem_constraints]
  have hcomposite : (t.grown column).schema.isComposite = t.schema.isComposite := rfl
  have htable : (t.grown column).schema.tableConstraints = t.schema.tableConstraints := rfl
  rw [hcomposite, htable]
  simp only [Table.grown, List.mem_append, List.mem_singleton, or_and_right, exists_or,
    exists_eq_left]
  exact or_right_comm

theorem references_grown : (t.grown column).schema.references = t.schema.references := by
  rw [Table.grown, TableSchema.references, List.flatMap_append]
  exact List.append_nil _

theorem mem_constraints_newColumn {composite : Bool} :
    k ∈ (newColumn column).constraints composite ↔ (column.notNull ∧ k = .notNull column.name) ∨
      (column.unique ∧ k = .unique [column.name]) ∨
      ∃ expr, column.checkExpr = some expr ∧ k = .check expr := by
  rw [mem_columnConstraints]
  simp only [newColumn, Bool.or_false, Bool.false_and]

variable (hname : column.name ≠ "_xmax")
include hname

theorem isVisible_set (row : Row) (v : String) :
    isVisible (row.set column.name v) = isVisible row := by
  rw [isVisible, isVisible, Row.find_set_of_ne _ _ hname.symm]

theorem live_grown : liveVersions (t.grown column).rows =
    (liveVersions t.rows).map fun row => row.set column.name (fillValue column) :=
  liveVersions_map (fun row => isVisible_set hname row _) _

theorem alike_grown : Alike (· ≠ column.name) t.rows (t.grown column).rows :=
  alike_map hname.symm (fun row _ hc => Row.find_set_of_ne row _ hc) _

theorem notNull_holds_grown_iff : (notNull column.name).Holds env (t.grown column).rows ↔
    fillValue column ≠ executorNull ∨ liveVersions t.rows = [] := by
  rw [Holds, live_grown hname, List.forall_mem_map]
  simp only [Row.find_set, Option.getD_some]
  cases liveVersions t.rows with
  | nil => simp
  | cons row rest => exact ⟨fun h => .inl (h row List.mem_cons_self), fun h _ _ => by simpa using h⟩

theorem unique_holds_grown_iff :
    (unique [column.name]).Holds env (t.grown column).rows ↔
      fillValue column = executorNull ∨ (liveVersions t.rows).length ≤ 1 := by
  rw [Holds, live_grown hname, List.filterMap_map]
  have hkey : uniqueKeyOf env.coll [column.name] ∘ (fun row : Row => row.set column.name
      (fillValue column)) = fun _ => if fillValue column = executorNull then none
        else some (LengthPrefix.encode [env.coll.key (fillValue column)]) := by
    funext row
    simp [uniqueKeyOf, keyValues, eq_comm]
  rw [hkey]
  by_cases hnull : fillValue column = executorNull
  · simp [hnull]
  · have hsome : (fun _ : Row => if fillValue column = executorNull then none
        else some (LengthPrefix.encode [env.coll.key (fillValue column)])) =
          some ∘ fun _ => LengthPrefix.encode [env.coll.key (fillValue column)] := by
      funext row
      exact if_neg hnull
    rw [hsome, List.filterMap_eq_map, List.map_const', List.nodup_replicate]
    simp [hnull]

omit hname

theorem soundAt_grown_iff (hreads : ReadsNamed env names) (h : SoundAt env names db table)
    (ht : db.tables table = some t)
    (hfree : ∀ c ∈ t.schema.columns, sameName c.name column.name = false) :
    SoundAt env names (db.put table (t.grown column)) table ↔ AddAllowed env names t column := by
  have hown := h.own t ht
  have hnew : column.name ∉ t.schema.columnNames := by
    intro hmem
    obtain ⟨c, hc, hcname⟩ := List.mem_map.mp hmem
    have := hfree c hc
    simp [sameName, hcname] at this
  constructor
  · intro hsound
    have htab := (soundAt_put_iff.mp hsound).1
    have hname : column.name ≠ "_xmax" := by
      intro heq
      apply htab.stampFree
      rw [columnNames_grown, ← heq]
      simp
    have hmem : ∀ {k}, k ∈ (newColumn column).constraints t.schema.isComposite →
        k ∈ (t.grown column).schema.constraints := fun hk => mem_constraints_grown.mpr (.inr hk)
    refine ⟨hname, fun hnn => ?_, fun hu => ?_, fun expr hexpr => ?_⟩
    · have hk := hmem (mem_constraints_newColumn.mpr (.inl ⟨hnn, rfl⟩))
      exact (notNull_holds_grown_iff hname).mp (htab.holds _ hk)
    · have hk := hmem (mem_constraints_newColumn.mpr (.inr (.inl ⟨hu, rfl⟩)))
      exact (unique_holds_grown_iff hname).mp (htab.holds _ hk)
    · have hk := hmem (mem_constraints_newColumn.mpr (.inr (.inr ⟨expr, hexpr, rfl⟩)))
      refine ⟨fun c hc => ?_, ?_⟩
      · have hcol := htab.named _ hk c hc
        rw [columnNames_grown] at hcol
        simpa using hcol
      · have hall := htab.holds _ hk
        rw [Holds, live_grown hname, List.forall_mem_map] at hall
        exact hall
  · rintro ⟨hname, hnn, hu, hcheck⟩
    have halike := @alike_grown t column hname
    have hmem : ∀ c ∈ t.schema.columnNames, c ∈ (t.grown column).schema.columnNames :=
      fun c hc => by
      rw [columnNames_grown]
      exact List.mem_append_left _ hc
    have hother : ∀ c ∈ t.schema.columnNames, c ≠ column.name := fun c hc heq => hnew (heq ▸ hc)
    refine soundAt_put_iff.mpr ⟨⟨?_, ?_, ?_, ?_, ?_, ?_⟩, ?_⟩
    · rw [columnNames_grown]
      exact List.nodup_append'.mpr ⟨hown.distinct, List.nodup_singleton _, by simpa using hnew⟩
    · rw [columnNames_grown]
      simpa using ⟨hown.stampFree, hname.symm⟩
    · rw [live_grown hname, columnNames_grown, List.forall_mem_map]
      intro row hrow c hc
      by_cases heq : c = column.name
      · simp [heq]
      · rw [Row.find_set_of_ne _ _ heq]
        exact hown.celled row hrow c (by simpa [heq] using hc)
    · intro k hk c hc
      rw [columnNames_grown]
      rcases mem_constraints_grown.mp hk with hold | hk
      · exact List.mem_append_left _ (hown.named k hold c hc)
      · rcases mem_constraints_newColumn.mp hk with ⟨-, rfl⟩ | ⟨-, rfl⟩ | ⟨expr, hexpr, rfl⟩
        · exact List.mem_append_right _ hc
        · exact List.mem_append_right _ hc
        · simpa using (hcheck expr hexpr).1 c hc
    · intro k hk
      rcases mem_constraints_grown.mp hk with hold | hk
      · refine (holds_iff_of_alike hreads halike fun c hc heq => ?_).mpr
          (hown.holds k hold)
        exact hnew (heq ▸ hown.named k hold c hc)
      · rcases mem_constraints_newColumn.mp hk with ⟨h', rfl⟩ | ⟨h', rfl⟩ | ⟨expr, hexpr, rfl⟩
        · exact (notNull_holds_grown_iff hname).mpr (hnn h')
        · exact (unique_holds_grown_iff hname).mpr (hu h')
        · rw [Holds, live_grown hname, List.forall_mem_map]
          exact (hcheck expr hexpr).2
    · intro r hr
      rw [references_grown] at hr
      refine (hown.refers r hr).put ht halike (fun c hc _ => hmem c hc)
        (halike.find_eq fun heq => hnew ?_) fun _ => hother _
      rw [← heq, (hown.refers r hr).ownColumn]
      exact owner_mem_columnNames hr
    · exact fun name t₂ _ ht₂ r hr href => (h.referring name t₂ ht₂ r hr href).put ht halike
        (fun c hc _ => hmem c hc) rfl fun _ => hother _

end

variable {r : Reference}

section

variable {env : AlterEnv} {names : String → List String} {db : Db} {table : String} {t : Table}
  {name : String}

theorem mem_columnNames_without {c : String} :
    c ∈ (t.without name).schema.columnNames ↔ c ∈ t.schema.columnNames ∧ c ≠ name := by
  simp only [Table.without, TableSchema.columnNames, List.mem_map, List.mem_filter, bne_iff_ne]
  constructor
  · rintro ⟨d, ⟨hd, hne⟩, rfl⟩
    exact ⟨⟨d, hd, rfl⟩, hne⟩
  · rintro ⟨⟨d, hd, rfl⟩, hne⟩
    exact ⟨d, ⟨hd, hne⟩, rfl⟩

theorem constraints_without_subset :
    (t.without name).schema.constraints ⊆ t.schema.constraints := by
  intro k hk
  rcases mem_constraints.mp hk with ⟨c, hc, hkc⟩ | hk
  · exact mem_constraints.mpr (.inl ⟨c, (List.mem_filter.mp hc).1, hkc⟩)
  · exact mem_constraints.mpr (.inr hk)

theorem mem_references_without :
    r ∈ (t.without name).schema.references ↔ r ∈ t.schema.references ∧ r.owner ≠ name := by
  rw [mem_references, mem_references]
  simp only [Table.without, List.mem_filter, bne_iff_ne]
  constructor
  · rintro ⟨c, ⟨hc, hne⟩, fk, hfk, rfl⟩
    exact ⟨⟨c, hc, fk, hfk, rfl⟩, hne⟩
  · rintro ⟨⟨c, hc, fk, hfk, rfl⟩, hne⟩
    exact ⟨c, ⟨hc, hne⟩, fk, hfk, rfl⟩

theorem alike_without (hname : name ≠ "_xmax") : Alike (· ≠ name) t.rows (t.without name).rows :=
  alike_map hname.symm (fun _ _ hc => Finmap.lookup_erase_ne hc) _

theorem soundAt_without_iff (hreads : ReadsNamed env names) (h : SoundAt env names db table)
    (ht : db.tables table = some t) (hhas : name ∈ t.schema.columnNames) :
    SoundAt env names (db.put table (t.without name)) table ↔
      DropAllowed names db table t name := by
  have hown := h.own t ht
  have hgone : name ∉ (t.without name).schema.columnNames := by
    rw [mem_columnNames_without]
    exact fun hmem => hmem.2 rfl
  have hname : name ≠ "_xmax" := fun heq => hown.stampFree (heq ▸ hhas)
  constructor
  · intro hsound
    obtain ⟨htab, hothers⟩ := soundAt_put_iff.mp hsound
    -- a reference to the column would have a parent without its column
    have hdangling : ∀ {r : Reference} {rows : List Row},
        r.Holds env (db.put table (t.without name)) rows → r.refTable = table →
          r.refColumn ≠ name := by
      rintro r rows hr href rfl
      obtain ⟨p, hp, hcol⟩ := hr.parentColumn
      rw [href, Db.put_tables_self] at hp
      obtain rfl := Option.some.inj hp
      exact hgone hcol
    refine ⟨fun k hk hc => hgone (htab.named k hk name hc), ?_⟩
    intro child t' ht' r hr href hcol
    by_cases hchild : child = table
    · subst hchild
      obtain rfl : t = t' := Option.some.inj (ht.symm.trans ht')
      refine ⟨rfl, by_contra fun hne => ?_⟩
      exact hdangling (htab.refers r (mem_references_without.mpr ⟨hr, hne⟩)) href hcol
    · exact absurd hcol (hdangling (hothers child t' hchild ht' r hr href) href)
  · rintro ⟨hnamed, hrefs⟩
    have halike := @alike_without t name hname
    have hmem : ∀ c ∈ t.schema.columnNames, c ≠ name → c ∈ (t.without name).schema.columnNames :=
      fun c hc hne => mem_columnNames_without.mpr ⟨hc, hne⟩
    refine soundAt_put_iff.mpr ⟨⟨?_, ?_, ?_, ?_, ?_, ?_⟩, ?_⟩
    · exact hown.distinct.sublist (List.filter_sublist.map _)
    · exact fun hmem => hown.stampFree (mem_columnNames_without.mp hmem).1
    · intro row hrow c hc
      obtain ⟨hcol, hne⟩ := mem_columnNames_without.mp hc
      exact celled_of_map_eq (halike.find_eq hne) (fun row hrow => hown.celled row hrow c hcol)
        row hrow
    · intro k hk c hc
      refine mem_columnNames_without.mpr ⟨hown.named k (constraints_without_subset hk) c hc, ?_⟩
      exact fun heq => hnamed k hk (heq ▸ hc)
    · intro k hk
      refine (holds_iff_of_alike hreads halike fun c hc heq => ?_).mpr
        (hown.holds k (constraints_without_subset hk))
      exact hnamed k hk (heq ▸ hc)
    · intro r hr
      obtain ⟨hold, howner⟩ := mem_references_without.mp hr
      have hholds := hown.refers r hold
      refine hholds.put ht halike hmem (halike.find_eq ?_) fun href _ hcol => ?_
      · rw [hholds.ownColumn]
        exact howner
      · exact howner (hrefs table t ht r hold href hcol).2
    · intro child t₂ hchild ht₂ r hr href
      refine (h.referring child t₂ ht₂ r hr href).put ht halike hmem rfl fun _ _ hcol => ?_
      exact hchild (hrefs child t₂ ht₂ r hr href hcol).1

end

section

variable {env : AlterEnv} {names : String → List String} {db : Db} {table : String} {t : Table}
  {old new : String}

def renamedTo (old new name : String) : String :=
  if name = old then new else name

theorem columnNames_renamed : (t.renamed old new).schema.columnNames =
    t.schema.columnNames.map (renamedTo old new) := by
  rw [Table.renamed, TableSchema.columnNames, TableSchema.columnNames, List.map_map, List.map_map]
  refine List.map_congr_left fun c _ => ?_
  simp only [comp_apply, renamedTo, beq_iff_eq]
  split <;> rfl

theorem renameCell_self (row : Row) : renameCell old old row = row := by
  rw [renameCell.eq_def]
  cases hcell : row.find old with
  | none => rfl
  | some v =>
    apply Row.ext_find
    intro c
    by_cases hc : c = old
    · rw [hc, Row.find_set, hcell]
    · rw [Row.find_set_of_ne _ _ hc]
      exact Finmap.lookup_erase_ne hc

theorem find_renameCell {row : Row} {v : String} (h : row.find old = some v) :
    (renameCell old new row).find new = some v := by
  rw [renameCell.eq_def, h]
  exact Row.find_set ..

theorem find_renameCell_of_ne {row : Row} {c : String} (hold : c ≠ old) (hnew : c ≠ new) :
    (renameCell old new row).find c = row.find c := by
  rw [renameCell.eq_def]
  split
  · rfl
  · rw [Row.find_set_of_ne _ _ hnew]
    exact Finmap.lookup_erase_ne hold

theorem renamed_self : t.renamed old old = t := by
  have hcolumns : (t.schema.columns.map fun c =>
      if c.name == old then { c with name := old } else c) = t.schema.columns := by
    refine (List.map_congr_left fun c _ => ?_).trans (List.map_id _)
    split
    · rename_i heq
      rw [← beq_iff_eq.mp heq]
      rfl
    · rfl
  have hrows : t.rows.map (renameCell old old) = t.rows :=
    (List.map_congr_left fun row _ => renameCell_self row).trans (List.map_id _)
  rw [Table.renamed, hcolumns, hrows]

theorem mem_columns_renamed : c ∈ (t.renamed old new).schema.columns ↔
    ∃ c₀ ∈ t.schema.columns, c = { c₀ with name := renamedTo old new c₀.name } := by
  rw [Table.renamed, List.mem_map]
  refine exists_congr fun c₀ => and_congr_right fun _ => ?_
  rw [eq_comm, renamedTo]
  by_cases heq : c₀.name = old
  · rw [if_pos (beq_iff_eq.mpr heq), if_pos heq]
  · rw [if_neg (fun hb => heq (beq_iff_eq.mp hb)), if_neg heq]

theorem mem_references_renamed : r ∈ (t.renamed old new).schema.references ↔
    ∃ r₀ ∈ t.schema.references, r = { r₀ with owner := renamedTo old new r₀.owner } := by
  rw [mem_references]
  constructor
  · rintro ⟨c, hc, fk, hfk, rfl⟩
    obtain ⟨c₀, hc₀, rfl⟩ := mem_columns_renamed.mp hc
    exact ⟨_, mem_references.mpr ⟨c₀, hc₀, fk, hfk, rfl⟩, rfl⟩
  · rintro ⟨r₀, hr₀, rfl⟩
    obtain ⟨c₀, hc₀, fk, hfk, rfl⟩ := mem_references.mp hr₀
    exact ⟨_, mem_columns_renamed.mpr ⟨c₀, hc₀, rfl⟩, fk, hfk, rfl⟩

theorem old_not_mem_renamed (hne : old ≠ new) : old ∉ (t.renamed old new).schema.columnNames := by
  rw [columnNames_renamed, List.mem_map]
  rintro ⟨c, -, hc⟩
  rw [renamedTo] at hc
  split at hc
  · exact hne hc.symm
  · rename_i hc'
    exact hc' hc

theorem mem_renamed_of_ne {c : String} (hc : c ∈ t.schema.columnNames) (hne : c ≠ old) :
    c ∈ (t.renamed old new).schema.columnNames := by
  rw [columnNames_renamed]
  exact List.mem_map.mpr ⟨c, hc, if_neg hne⟩

theorem new_mem_renamed (hold : old ∈ t.schema.columnNames) :
    new ∈ (t.renamed old new).schema.columnNames := by
  rw [columnNames_renamed]
  exact List.mem_map.mpr ⟨old, hold, if_pos rfl⟩

/-- A column under another name is another one to whatever names columns. -/
theorem renameAllowed_of_named (h : SoundAt env names db table) (ht : db.tables table = some t)
    (hold : old ∈ t.schema.columnNames) (hstamp : "_xmax" ∉ (t.renamed old new).schema.columnNames)
    (hnamed : ∀ k ∈ (t.renamed old new).schema.constraints, ∀ n ∈ k.columns names,
      n ∈ (t.renamed old new).schema.columnNames)
    (hown : ∀ r ∈ (t.renamed old new).schema.references, r.column = r.owner)
    (hparent : ∀ child t', (db.put table (t.renamed old new)).tables child = some t' →
      ∀ r ∈ t'.schema.references, r.refTable = table →
        r.refColumn ∈ (t.renamed old new).schema.columnNames) :
    RenameAllowed names db table t old new := by
  refine ⟨fun heq => hstamp (heq ▸ new_mem_renamed hold), ?_⟩
  by_cases hne : old = new
  · exact .inl hne
  have hgone := @old_not_mem_renamed t old new hne
  obtain ⟨htable, hcheck⟩ := named_iff.mp hnamed
  refine .inr ⟨fun k hk hc => hgone (htable k hk old hc), fun c hc expr hexpr hn => ?_, ?_⟩
  · exact hgone (hcheck _ (mem_columns_renamed.mpr ⟨c, hc, rfl⟩) expr hexpr old hn)
  · rintro child t' ht' r hr (⟨rfl, howner⟩ | ⟨href, hcol⟩)
    · obtain rfl : t = t' := Option.some.inj (ht.symm.trans ht')
      have hcolumn := hown _ (mem_references_renamed.mpr ⟨r, hr, rfl⟩)
      have hbefore := ((h.own t ht).refers r hr).ownColumn
      rw [renamedTo, if_pos howner] at hcolumn
      exact hne (howner.symm.trans (hbefore.symm.trans hcolumn))
    · by_cases hchild : child = table
      · subst hchild
        obtain rfl : t = t' := Option.some.inj (ht.symm.trans ht')
        have hmem := hparent child _ (Db.put_tables_self ..) _
          (mem_references_renamed.mpr ⟨r, hr, rfl⟩) href
        exact hgone (hcol ▸ hmem)
      · have hmem := hparent child t' (by rw [Db.put_tables_of_ne hchild, ht']) r hr href
        exact hgone (hcol ▸ hmem)

theorem sameName_self (name : String) : sameName name name :=
  beq_self_eq_true _

/-- Of the constraints, those on the column alone go with it. -/
theorem mem_constraints_renamed (htable : ∀ k ∈ t.schema.tableConstraints, old ∉ k.columns names)
    (hcheck : ∀ c ∈ t.schema.columns, ∀ expr, c.checkExpr = some expr → old ∉ names expr)
    (hk : k ∈ (t.renamed old new).schema.constraints) :
    (k ∈ t.schema.constraints ∧ old ∉ k.columns names) ∨
      (k = .notNull new ∧ notNull old ∈ t.schema.constraints) ∨
      (k = .unique [new] ∧ unique [old] ∈ t.schema.constraints) := by
  rcases mem_constraints.mp hk with ⟨c, hc, hkc⟩ | hk
  · obtain ⟨c₀, hc₀, rfl⟩ := mem_columns_renamed.mp hc
    have hmem : ∀ {k}, k ∈ c₀.constraints t.schema.isComposite → k ∈ t.schema.constraints :=
      fun hk => mem_constraints.mpr (.inl ⟨c₀, hc₀, hk⟩)
    rcases mem_columnConstraints.mp hkc with ⟨hflag, rfl⟩ | ⟨hflag, rfl⟩ | ⟨expr, hexpr, rfl⟩
    · have hold := hmem (mem_columnConstraints.mpr (.inl ⟨hflag, rfl⟩))
      by_cases heq : c₀.name = old
      · exact .inr (.inl ⟨congrArg _ (if_pos heq), heq ▸ hold⟩)
      · refine .inl ⟨by rwa [renamedTo, if_neg heq], fun hc => ?_⟩
        rw [renamedTo, if_neg heq] at hc
        exact heq (List.mem_singleton.mp hc).symm
    · have hold := hmem (mem_columnConstraints.mpr (.inr (.inl ⟨hflag, rfl⟩)))
      by_cases heq : c₀.name = old
      · exact .inr (.inr ⟨congrArg (fun n => unique [n]) (if_pos heq), heq ▸ hold⟩)
      · refine .inl ⟨by rwa [renamedTo, if_neg heq], fun hc => ?_⟩
        rw [renamedTo, if_neg heq] at hc
        exact heq (List.mem_singleton.mp hc).symm
    · exact .inl ⟨hmem (mem_columnConstraints.mpr (.inr (.inr ⟨expr, hexpr, rfl⟩))),
        hcheck c₀ hc₀ expr hexpr⟩
  · exact .inl ⟨mem_constraints.mpr (.inr hk), htable k hk⟩

theorem SoundAt.renamed (hreads : ReadsNamed env names) (h : SoundAt env names db table)
    (ht : db.tables table = some t) (hr : Renames t old new)
    (hallowed : RenameAllowed names db table t old new) :
    SoundAt env names (db.put table (t.renamed old new)) table := by
  obtain ⟨hstamp, rfl | ⟨htable, hcheck, hrefs⟩⟩ := hallowed
  · rwa [renamed_self, Db.put_self ht]
  by_cases hne : old = new
  · subst hne
    rwa [renamed_self, Db.put_self ht]
  have hown := h.own t ht
  have hold : old ∈ t.schema.columnNames := mem_columnNames.mpr hr.1
  have holdStamp : old ≠ "_xmax" := fun heq => hown.stampFree (heq ▸ hold)
  have hnew : new ∉ t.schema.columnNames := by
    intro hmem
    obtain ⟨c, hc, rfl⟩ := List.mem_map.mp hmem
    exact Bool.false_ne_true ((hr.2 c hc (Ne.symm hne)).symm.trans (sameName_self _))
  have halike : Alike (fun c => c ≠ old ∧ c ≠ new) t.rows (t.renamed old new).rows :=
    alike_map ⟨holdStamp.symm, hstamp.symm⟩ (fun _ _ hc => find_renameCell_of_ne hc.1 hc.2) _
  have hmoved : (liveVersions (t.renamed old new).rows).map (·.find new) =
      (liveVersions t.rows).map (·.find old) := by
    have hlive : liveVersions (t.renamed old new).rows =
        (liveVersions t.rows).map (renameCell old new) := by
      refine liveVersions_map (fun row => ?_) _
      rw [isVisible, isVisible, find_renameCell_of_ne holdStamp.symm hstamp.symm]
    rw [hlive, List.map_map]
    refine List.map_congr_left fun row hrow => ?_
    obtain ⟨v, hv⟩ := Option.ne_none_iff_exists'.mp (hown.celled row hrow old hold)
    rw [comp_apply, find_renameCell hv, hv]
  have hother : ∀ {c}, c ∈ t.schema.columnNames → c ≠ old → c ≠ old ∧ c ≠ new :=
    fun hc hc' => ⟨hc', fun heq => hnew (heq ▸ hc)⟩
  refine soundAt_put_iff.mpr ⟨⟨?_, ?_, ?_, ?_, ?_, ?_⟩, ?_⟩
  · rw [columnNames_renamed]
    refine hown.distinct.map_on fun a ha b hb heq => ?_
    simp only [renamedTo] at heq
    split at heq <;> split at heq
    · rename_i ha' hb'
      rw [ha', hb']
    · exact absurd (heq ▸ hb) hnew
    · exact absurd (heq ▸ ha) hnew
    · exact heq
  · rw [columnNames_renamed, List.mem_map]
    rintro ⟨c, hc, hcname⟩
    rw [renamedTo] at hcname
    split at hcname
    · exact hstamp hcname
    · exact hown.stampFree (hcname ▸ hc)
  · intro row hrow c hc
    rw [columnNames_renamed, List.mem_map] at hc
    obtain ⟨c₀, hc₀, rfl⟩ := hc
    by_cases heq : c₀ = old
    · rw [renamedTo, if_pos heq]
      exact celled_of_map_eq hmoved (fun row hrow => hown.celled row hrow old hold) row hrow
    · rw [renamedTo, if_neg heq]
      exact celled_of_map_eq (halike.find_eq (hother hc₀ heq))
        (fun row hrow => hown.celled row hrow c₀ hc₀) row hrow
  · intro k hk c hc
    rcases mem_constraints_renamed htable hcheck hk with ⟨hk, hno⟩ | ⟨rfl, -⟩ | ⟨rfl, -⟩
    · exact mem_renamed_of_ne (hown.named k hk c hc) fun heq => hno (heq ▸ hc)
    · exact List.mem_singleton.mp hc ▸ new_mem_renamed hold
    · exact List.mem_singleton.mp hc ▸ new_mem_renamed hold
  · intro k hk
    rcases mem_constraints_renamed htable hcheck hk with ⟨hk, hno⟩ | ⟨rfl, hbefore⟩ |
      ⟨rfl, hbefore⟩
    · refine (holds_iff_of_alike hreads halike fun c hc => ?_).mpr (hown.holds k hk)
      exact hother (hown.named k hk c hc) fun heq => hno (heq ▸ hc)
    · exact (notNull_holds_iff hmoved).mpr (hown.holds _ hbefore)
    · refine (unique_holds_iff ?_).mpr (hown.holds _ hbefore)
      have hvalues := congrArg
        (List.map fun cell : Option String => [cell.getD executorNull]) hmoved
      rwa [List.map_map, List.map_map] at hvalues
  · intro r hr
    obtain ⟨r₀, hr₀, rfl⟩ := mem_references_renamed.mp hr
    have hno := hrefs table t ht r₀ hr₀
    have howner : r₀.owner ≠ old := fun heq => hno (.inl ⟨rfl, heq⟩)
    rw [renamedTo, if_neg howner]
    have hholds := hown.refers r₀ hr₀
    refine hholds.put ht halike (fun _ hc hne => mem_renamed_of_ne hc hne.1)
      (halike.find_eq ?_) fun href hcol => hother hcol fun heq => hno (.inr ⟨href, heq⟩)
    rw [hholds.ownColumn]
    exact hother (owner_mem_columnNames hr₀) howner
  · intro child t₂ _ ht₂ r hr href
    refine (h.referring child t₂ ht₂ r hr href).put ht halike
      (fun _ hc hne => mem_renamed_of_ne hc hne.1) rfl fun href hcol => hother hcol fun heq => ?_
    exact hrefs child t₂ ht₂ r hr (.inr ⟨href, heq⟩)

theorem SoundAt.parent_mem {t' : Table} (h : SoundAt env names (db.put table t') table)
    {child : String} {t₂ : Table} (ht₂ : (db.put table t').tables child = some t₂)
    (hr : r ∈ t₂.schema.references) (href : r.refTable = table) :
    r.refColumn ∈ t'.schema.columnNames := by
  obtain ⟨p, hp, hcol⟩ := (h.referring child t₂ ht₂ r hr href).parentColumn
  rw [href, Db.put_tables_self] at hp
  obtain rfl := Option.some.inj hp
  exact hcol

theorem soundAt_renamed_iff (hreads : ReadsNamed env names) (h : SoundAt env names db table)
    (ht : db.tables table = some t) (hr : Renames t old new) :
    SoundAt env names (db.put table (t.renamed old new)) table ↔
      RenameAllowed names db table t old new := by
  refine ⟨fun hsound => ?_, h.renamed hreads ht hr⟩
  have htab := hsound.own _ (Db.put_tables_self ..)
  exact renameAllowed_of_named h ht (mem_columnNames.mpr hr.1) htab.stampFree htab.named
    (fun r hr => (htab.refers r hr).ownColumn) fun _ _ ht' _ hr href =>
      hsound.parent_mem ht' hr href

end

section

variable {env : AlterEnv} {names : String → List String} {db : Db} {table : String} {t : Table}
  {column : ColumnDef} {rows : List Row}

/-- A version of a row before and after the values of the column are converted. -/
structure Converted (column : ColumnDef) (r r' : Row) : Prop where
  others : ∀ c, c ≠ column.name → r'.find c = r.find c
  celled : (r'.find column.name).isSome = (r.find column.name).isSome

theorem convertRows_cons {target : ColumnDef} {row : Row} {rest rows' : List Row} {n : Nat}
    (h : convertRows env target column n (row :: rest) = .ok rows') :
    ∃ row' others, rows' = row' :: others ∧
      (∃ n', convertRows env target column n' rest = .ok others) ∧
      (row' = row ∨ ∃ v, (row.find column.name).isSome ∧ row' = row.set column.name v) := by
  simp only [convertRows, bind, Except.bind, pure, Except.pure] at h
  generalize hn : (if isVisible row = true then n + 1 else n) = n' at h
  cases hcell : row.find column.name with
  | none =>
    rw [hcell] at h
    cases hrest : convertRows env target column n' rest with
    | error e =>
      rw [hrest] at h
      exact nomatch h
    | ok others =>
      rw [hrest] at h
      exact ⟨row, others, (Except.ok.inj h).symm, ⟨n', hrest⟩, .inl rfl⟩
  | some val =>
    rw [hcell] at h
    simp only at h
    cases hval : convertCell env target column (isVisible row) n' val with
    | error e =>
      rw [hval] at h
      exact nomatch h
    | ok v =>
      cases hrest : convertRows env target column n' rest with
      | error e =>
        rw [hval, hrest] at h
        exact nomatch h
      | ok others =>
        rw [hval, hrest] at h
        exact ⟨_, others, (Except.ok.inj h).symm, ⟨n', hrest⟩, .inr ⟨v, rfl, rfl⟩⟩

theorem convertRows_converted {target : ColumnDef} (hname : column.name ≠ "_xmax") :
    ∀ {rows rows' : List Row} {n : Nat}, convertRows env target column n rows = .ok rows' →
      List.Forall₂ (fun r r' => isVisible r' = isVisible r ∧ Converted column r r') rows rows'
  | [], rows', n, h => by
      obtain rfl : [] = rows' := Except.ok.inj h
      exact .nil
  | row :: rest, rows', n, h => by
      obtain ⟨row', others, rfl, ⟨n', hrest⟩, hrow⟩ := convertRows_cons h
      refine .cons ?_ (convertRows_converted hname hrest)
      rcases hrow with rfl | ⟨v, hcell, rfl⟩
      · exact ⟨rfl, fun _ _ => rfl, rfl⟩
      · refine ⟨isVisible_set hname row v, fun c hc => Row.find_set_of_ne row v hc, ?_⟩
        rw [Row.find_set, hcell]
        rfl

theorem map_modified {β : Type} {g : ColumnDef → β} (hg : ∀ c, g (modifiedDef column c) = g c) :
    (t.modified column rows).schema.columns.map g = t.schema.columns.map g :=
  map_changeFirst hg _

theorem columnNames_modified : (t.modified column rows).schema.columnNames = t.schema.columnNames :=
  map_modified fun _ => rfl

theorem references_modified : (t.modified column rows).schema.references = t.schema.references :=
  references_congr (@map_modified t column rows _ _ fun _ => rfl)

theorem mem_constraints_modified (hk : k ∈ (t.modified column rows).schema.constraints) :
    k ∈ t.schema.constraints ∨ k = .notNull column.name ∨ k = .unique [column.name] := by
  rcases mem_constraints.mp hk with ⟨c, hc, hkc⟩ | hk
  · rcases mem_changeFirst hc with hc | ⟨c₀, hc₀, hp, rfl⟩
    · exact .inl (mem_constraints.mpr (.inl ⟨c, hc, hkc⟩))
    · have hname : (modifiedDef column c₀).name = column.name := beq_iff_eq.mp hp
      rcases mem_columnConstraints.mp hkc with ⟨-, rfl⟩ | ⟨-, rfl⟩ | ⟨expr, hexpr, rfl⟩
      · exact .inr (.inl (by rw [hname]))
      · exact .inr (.inr (by rw [hname]))
      · refine .inl (mem_constraints.mpr (.inl ⟨c₀, hc₀, ?_⟩))
        exact mem_columnConstraints.mpr (.inr (.inr ⟨expr, hexpr, rfl⟩))
  · exact .inl (mem_constraints.mpr (.inr hk))

theorem soundAt_modified_iff (hreads : ReadsNamed env names) (h : SoundAt env names db table)
    (ht : db.tables table = some t) (hconv : Converts env t column rows) :
    SoundAt env names (db.put table (t.modified column rows)) table ↔
      ModifyAllowed env names db table t column := by
  have hown := h.own t ht
  obtain ⟨current, hcurrent, hrows⟩ := hconv
  have hcol : column.name ∈ t.schema.columnNames :=
    mem_columnNames.mpr (has_iff_find.mpr ⟨current, hcurrent⟩)
  have hname : column.name ≠ "_xmax" := fun heq => hown.stampFree (heq ▸ hcol)
  have hconverted := convertRows_converted hname hrows
  constructor
  · rintro hsound rows' ⟨current', hcurrent', hrows'⟩
    obtain rfl : current = current' := Option.some.inj (hcurrent.symm.trans hcurrent')
    obtain rfl : rows = rows' := Except.ok.inj (hrows.symm.trans hrows')
    have htab := hsound.own _ (Db.put_tables_self ..)
    refine ⟨fun k hk _ => htab.holds k hk, fun child t' ht' r hr htouch => ?_⟩
    rcases htouch with ⟨rfl, -⟩ | ⟨href, -⟩
    · rw [Db.put_tables_self] at ht'
      obtain rfl := Option.some.inj ht'
      exact htab.refers r hr
    · exact hsound.referring child t' ht' r hr href
  · intro hallowed
    obtain ⟨hcon, hrefs⟩ := hallowed rows ⟨current, hcurrent, hrows⟩
    have halike : Alike (· ≠ column.name) t.rows rows :=
      hconverted.imp fun r r' hr => ⟨hr.1, hr.2.others⟩
    have hmem : ∀ c ∈ t.schema.columnNames, c ≠ column.name →
        c ∈ (t.modified column rows).schema.columnNames := fun c hc _ => by
      rwa [columnNames_modified]
    refine soundAt_put_iff.mpr ⟨⟨?_, ?_, ?_, ?_, ?_, ?_⟩, ?_⟩
    · rw [columnNames_modified]
      exact hown.distinct
    · rw [columnNames_modified]
      exact hown.stampFree
    · rw [columnNames_modified]
      intro row hrow c hc
      by_cases heq : c = column.name
      · have hsome : (liveVersions rows).map (fun r => (r.find column.name).isSome) =
            (liveVersions t.rows).map fun r => (r.find column.name).isSome :=
          map_liveVersions_eq hconverted fun r r' hr => hr.celled
        have hmem : (row.find column.name).isSome ∈
            (liveVersions t.rows).map fun r => (r.find column.name).isSome := by
          rw [← hsome]
          exact List.mem_map.mpr ⟨row, hrow, rfl⟩
        obtain ⟨row₀, hrow₀, hcell⟩ := List.mem_map.mp hmem
        have hbefore := hown.celled row₀ hrow₀ column.name hcol
        rw [← Option.isSome_iff_ne_none, hcell] at hbefore
        rw [heq]
        exact Option.isSome_iff_ne_none.mp hbefore
      · exact celled_of_map_eq (halike.find_eq heq)
          (fun row hrow => hown.celled row hrow c hc) row hrow
    · intro k hk c hc
      rw [columnNames_modified]
      rcases mem_constraints_modified hk with hk | rfl | rfl
      · exact hown.named k hk c hc
      · exact List.mem_singleton.mp hc ▸ hcol
      · exact List.mem_singleton.mp hc ▸ hcol
    · intro k hk
      by_cases hmem : column.name ∈ k.columns names
      · exact hcon k hk hmem
      · have hbefore : k ∈ t.schema.constraints := by
          rcases mem_constraints_modified hk with hk | rfl | rfl
          · exact hk
          · exact absurd (List.mem_singleton_self _) hmem
          · exact absurd (List.mem_singleton_self _) hmem
        refine (holds_iff_of_alike hreads halike fun c hc => ?_).mpr
          (hown.holds k hbefore)
        exact fun heq => hmem (heq ▸ hc)
    · intro r hr
      by_cases htouch : Touches table column.name table r
      · exact hrefs table _ (Db.put_tables_self ..) r hr htouch
      · rw [references_modified] at hr
        have hholds := hown.refers r hr
        refine hholds.put ht halike hmem
          (halike.find_eq fun heq => htouch (.inl ⟨rfl, ?_⟩))
          fun href _ heq => htouch (.inr ⟨href, heq⟩)
        rw [← hholds.ownColumn, heq]
    · intro child t₂ hchild ht₂ r hr href
      by_cases heq : r.refColumn = column.name
      · exact hrefs child t₂ (by rw [Db.put_tables_of_ne hchild, ht₂]) r hr (.inr ⟨href, heq⟩)
      · exact (h.referring child t₂ ht₂ r hr href).put ht halike hmem rfl fun _ _ => heq

/-- CHANGE COLUMN to another name, before the column takes its place. -/
theorem soundAt_changed_iff {old : String} (hreads : ReadsNamed env names)
    (h : SoundAt env names db table) (ht : db.tables table = some t)
    (hr : Renames t old column.name)
    (hconv : Converts env (t.renamed old column.name) column rows) :
    SoundAt env names (db.put table ((t.renamed old column.name).modified column rows)) table ↔
      RenameAllowed names db table t old column.name ∧
        ModifyAllowed env names (db.put table (t.renamed old column.name)) table
          (t.renamed old column.name) column := by
  have hmodify : SoundAt env names (db.put table (t.renamed old column.name)) table →
      (SoundAt env names (db.put table ((t.renamed old column.name).modified column rows)) table ↔
        ModifyAllowed env names (db.put table (t.renamed old column.name)) table
          (t.renamed old column.name) column) := by
    intro hrenamed
    have hiff := soundAt_modified_iff hreads hrenamed (Db.put_tables_self ..) hconv
    rwa [Db.put_put] at hiff
  constructor
  · intro hsound
    have htab := hsound.own _ (Db.put_tables_self ..)
    have hallowed : RenameAllowed names db table t old column.name := by
      obtain ⟨htable, hcheck⟩ := named_iff.mp htab.named
      have hstamp := htab.stampFree
      have howns := htab.refers
      rw [columnNames_modified] at hstamp htable hcheck
      rw [references_modified] at howns
      refine renameAllowed_of_named h ht (mem_columnNames.mpr hr.1) hstamp
        (named_iff.mpr ⟨htable, fun c hc expr hexpr => ?_⟩)
        (fun r hr => (howns r hr).ownColumn) fun child t' ht' r hr' href => ?_
      · have hmem : c.checkExpr ∈ ((t.renamed old column.name).modified column
            rows).schema.columns.map (·.checkExpr) := by
          rw [map_modified fun _ => rfl]
          exact List.mem_map_of_mem hc
        obtain ⟨c', hc', heq⟩ := List.mem_map.mp hmem
        exact hcheck c' hc' expr (heq.trans hexpr)
      · have hmem := @columnNames_modified (t.renamed old column.name) column rows
        by_cases hchild : child = table
        · rw [hchild, Db.put_tables_self] at ht'
          obtain rfl := Option.some.inj ht'
          rw [← @references_modified _ column rows] at hr'
          exact hmem ▸ hsound.parent_mem (Db.put_tables_self ..) hr' href
        · rw [Db.put_tables_of_ne hchild] at ht'
          rw [← hmem]
          exact hsound.parent_mem ((Db.put_tables_of_ne hchild).trans ht') hr' href
    exact ⟨hallowed, (hmodify (h.renamed hreads ht hr hallowed)).mp hsound⟩
  · rintro ⟨hallowed, hmod⟩
    exact (hmodify (h.renamed hreads ht hr hallowed)).mpr hmod

end

variable {rows : List Row}

section

variable {env : AlterEnv} {names : String → List String} {db : Db} {table : String} {t : Table}

theorem orphan_eq_none_iff {fk : ForeignKey} {column : String} :
    orphan env db fk column rows = none ↔ ∀ row ∈ liveVersions rows, ∀ v,
      row.find column = some v →
        (db.parents env.coll).fkChildViolation fk.refTable fk.refColumn v = none := by
  rw [orphan, List.findSome?_eq_none_iff]
  exact forall₂_congr fun row _ => Option.bind_eq_none_iff

def ForeignKey.refersTo (fk : ForeignKey) : String × String × String :=
  (fk.column, fk.refTable, fk.refColumn)

theorem map_refersTo_namedKey (bare : String) (n : Nat) (fks : List ForeignKey) :
    (fks.mapIdx fun k fk => namedKey bare (n + k + 1) fk).map (·.refersTo) =
      fks.map (·.refersTo) := by
  apply List.ext_getElem?
  intro i
  rw [List.getElem?_map, List.getElem?_map, List.getElem?_mapIdx, Option.map_map]
  congr 1
  funext fk
  rw [comp_apply, namedKey]
  split <;> rfl

theorem references_eq_map :
    c.references = (c.foreignKeys.map (·.refersTo)).map fun k => ⟨c.name, k.1, k.2.1, k.2.2⟩ := by
  rw [List.map_map]
  rfl

theorem map_fkMaterializeNames {β : Type} {g : ColumnDef → β} {bare : String}
    (hg : ∀ c fks, fks.map (·.refersTo) = c.foreignKeys.map (·.refersTo) →
      g { c with foreignKeys := fks } = g c) :
    ∀ (columns : List ColumnDef) (n : Nat),
      (fkMaterializeNames bare n columns).map g = columns.map g
  | [], _ => rfl
  | c :: cs, n => by
      rw [fkMaterializeNames, List.map_cons, List.map_cons, map_fkMaterializeNames hg cs,
        hg c _ (map_refersTo_namedKey bare n _)]

theorem declares_fkMaterializeNames (schema : TableSchema) (bare : String) :
    { schema with columns := fkMaterializeNames bare 0 schema.columns }.columnNames =
        schema.columnNames ∧
      { schema with columns := fkMaterializeNames bare 0 schema.columns }.constraints =
        schema.constraints ∧
      { schema with columns := fkMaterializeNames bare 0 schema.columns }.references =
        schema.references := by
  refine ⟨map_fkMaterializeNames (fun _ _ _ => rfl) _ _,
    constraints_congr (map_fkMaterializeNames (fun _ _ _ => rfl) _ _),
    references_congr (map_fkMaterializeNames (fun c fks h => ?_) _ _)⟩
  rw [references_eq_map, references_eq_map, h]

def addedReference (key : ForeignKey) : Reference :=
  ⟨key.column, key.column, key.refTable, key.refColumn⟩

/-- The columns with the key added to the first one that it names. -/
def addKey (key : ForeignKey) (columns : List ColumnDef) : List ColumnDef :=
  changeFirst (·.name == key.column) (fun c => { c with foreignKeys := c.foreignKeys ++ [key] })
    columns

variable {key : ForeignKey}

theorem mem_references_addKey
    (hr : r ∈ { schema with columns := addKey key schema.columns }.references) :
    r ∈ schema.references ∨ r = addedReference key := by
  obtain ⟨c, hc, fk, hfk, rfl⟩ := mem_references.mp hr
  rcases mem_changeFirst hc with hc | ⟨c₀, hc₀, hp, rfl⟩
  · exact .inl (mem_references.mpr ⟨c, hc, fk, hfk, rfl⟩)
  · rcases List.mem_append.mp hfk with hfk | hfk
    · exact .inl (mem_references.mpr ⟨c₀, hc₀, fk, hfk, rfl⟩)
    · obtain rfl := List.mem_singleton.mp hfk
      refine .inr ?_
      rw [addedReference, beq_iff_eq.mp hp]

theorem addedReference_mem (hhas : schema.has key.column) :
    addedReference key ∈ { schema with columns := addKey key schema.columns }.references := by
  obtain ⟨c, hc, hname⟩ := has_iff.mp hhas
  obtain ⟨c₀, -, hp, hmem⟩ := exists_mem_changeFirst
    (fun c : ColumnDef => { c with foreignKeys := c.foreignKeys ++ [key] })
    (p := fun c => c.name == key.column) ⟨c, hc, beq_iff_eq.mpr hname⟩
  refine mem_references.mpr ⟨_, hmem, key, List.mem_append_right _ List.mem_cons_self, ?_⟩
  rw [addedReference, beq_iff_eq.mp hp]

theorem soundAt_addKey_iff (h : SoundAt env names db table) (ht : db.tables table = some t)
    (hnames : { t.schema with columns := columns }.columnNames = t.schema.columnNames)
    (hcon : { t.schema with columns := columns }.constraints = t.schema.constraints)
    (hrefs : { t.schema with columns := columns }.references = t.schema.references)
    (hhas : t.schema.has key.column) :
    SoundAt env names
        (db.putSchema table t { t.schema with columns := addKey key columns }) table ↔
      (∃ p, db.tables key.refTable = some p ∧ key.refColumn ∈ p.schema.columnNames) ∧
        orphan env db key key.column t.rows = none := by
  have hnames' : { t.schema with columns := addKey key columns }.columnNames =
      t.schema.columnNames := by
    refine Eq.trans ?_ hnames
    exact map_changeFirst (by exact fun _ => rfl) _
  have hcon' : { t.schema with columns := addKey key columns }.constraints =
      t.schema.constraints := by
    refine Eq.trans ?_ hcon
    apply @constraints_congr { t.schema with columns := columns }
    exact map_changeFirst (by exact fun _ => rfl) _
  have hcolumn : ({ t.schema with columns := columns } : TableSchema).has key.column := by
    rw [← mem_columnNames, hnames, mem_columnNames, hhas]
  have hholds : (addedReference key).Holds env db t.rows ↔
      (∃ p, db.tables key.refTable = some p ∧ key.refColumn ∈ p.schema.columnNames) ∧
        orphan env db key key.column t.rows = none := by
    rw [orphan_eq_none_iff]
    exact ⟨fun hr => ⟨hr.parentColumn, hr.noOrphan⟩, fun hr => ⟨rfl, hr.1, hr.2⟩⟩
  rw [← hholds, Db.putSchema]
  constructor
  · intro hsound
    have hr := (hsound.own _ (Db.put_tables_self ..)).refers _
      (@addedReference_mem { t.schema with columns := columns } key hcolumn)
    refine hr.congr rfl rfl rfl fun p hp hcol => ?_
    by_cases href : (addedReference key).refTable = table
    · rw [href, Db.put_tables_self] at hp
      obtain rfl := Option.some.inj hp
      rw [hnames'] at hcol
      exact ⟨t, by rw [href, ht], hcol, rfl⟩
    · rw [Db.put_tables_of_ne href] at hp
      exact ⟨p, hp, hcol, rfl⟩
  · intro hr
    refine h.extend ht (hnames' ▸ .refl _) (fun k hk => .inl (hcon' ▸ hk)) fun r hmem => ?_
    rcases @mem_references_addKey { t.schema with columns := columns } _ _ hmem with hold | rfl
    · exact .inl (hrefs ▸ hold)
    · exact .inr hr

end

variable {name : Option String}

section

variable {env : AlterEnv} {names : String → List String} {db : Db} {table : String} {t : Table}

theorem repeatedKey_eq_none_iff {columns : List String} :
    repeatedKey env name columns rows = none ↔ (unique columns).Holds env rows := by
  rw [repeatedKey, Option.map_eq_none_iff, firstRepeat_eq_none_iff]
  exact and_iff_left fun _ _ => List.not_mem_nil

theorem SoundAt.addUniqueKey (h : SoundAt env names db table) (ht : db.tables table = some t)
    {columns : List String} (hhas : ∀ c ∈ columns, t.schema.has c)
    (hkey : repeatedKey env name columns t.rows = none) :
    SoundAt env names (db.putSchema table t
      { t.schema with uniqueKeys := t.schema.uniqueKeys ++ [⟨name, columns⟩] }) table := by
  refine h.extend ht (.refl _) (fun k hk => ?_) fun _ hr => .inl hr
  rcases mem_constraints.mp hk with hcol | hk
  · exact .inl (mem_constraints.mpr (.inl hcol))
  · have hcases : k ∈ t.schema.tableConstraints ∨ k = .unique columns := by
      simp only [TableSchema.tableConstraints, List.map_append, List.mem_append, List.map_cons,
        List.map_nil, List.mem_singleton] at hk ⊢
      tauto
    rcases hcases with hold | rfl
    · exact .inl (mem_constraints.mpr (.inr hold))
    · exact .inr ⟨fun c hc => mem_columnNames.mpr (hhas c hc), repeatedKey_eq_none_iff.mp hkey⟩

theorem SoundAt.addUniqueColumn (h : SoundAt env names db table) (ht : db.tables table = some t)
    {column : String} (hkey : repeatedKey env name [column] t.rows = none) :
    SoundAt env names (db.putSchema table t
      { t.schema with
        columns := changeFirst (·.name == column)
          (fun c => { c with unique := true, uniqueConstraintName := name })
          t.schema.columns }) table := by
  refine h.extend ht ?_ (fun k hk => ?_) fun r hr => .inl ?_
  · refine .of_eq ?_
    exact map_changeFirst (by exact fun _ => rfl) _
  · rcases mem_constraints.mp hk with ⟨c, hc, hkc⟩ | hk
    · rcases mem_changeFirst hc with hc | ⟨c₀, hc₀, hp, rfl⟩
      · exact .inl (mem_constraints.mpr (.inl ⟨c, hc, hkc⟩))
      · have hold : ∀ {k}, k ∈ c₀.constraints t.schema.isComposite → k ∈ t.schema.constraints :=
          fun hk => mem_constraints.mpr (.inl ⟨c₀, hc₀, hk⟩)
        rcases mem_columnConstraints.mp hkc with hk | ⟨-, rfl⟩ | hk
        · exact .inl (hold (mem_columnConstraints.mpr (.inl hk)))
        · refine .inr ⟨fun n hn => ?_, ?_⟩
          · rw [List.mem_singleton.mp hn]
            exact List.mem_map.mpr ⟨c₀, hc₀, rfl⟩
          · simp only [beq_iff_eq.mp hp]
            exact repeatedKey_eq_none_iff.mp hkey
        · exact .inl (hold (mem_columnConstraints.mpr (.inr (.inr hk))))
    · exact .inl (mem_constraints.mpr (.inr hk))
  · rwa [references_congr (map_changeFirst (by exact fun _ => rfl) _)] at hr

theorem soundAt_addCheck_iff (h : SoundAt env names db table) (ht : db.tables table = some t)
    {expr : String} (hrows : ∀ row ∈ liveVersions t.rows, env.evalCheck expr row) :
    SoundAt env names (db.putSchema table t
        { t.schema with checkConstraints := t.schema.checkConstraints ++ [⟨name, expr⟩] }) table ↔
      ∀ c ∈ names expr, c ∈ t.schema.columnNames := by
  have hcases : ∀ k, k ∈ ({ t.schema with
      checkConstraints := t.schema.checkConstraints ++ [⟨name, expr⟩] } :
        TableSchema).constraints ↔ k ∈ t.schema.constraints ∨ k = .check expr := by
    intro k
    simp only [TableSchema.constraints, TableSchema.tableConstraints, List.map_append,
      List.mem_append, List.map_cons, List.map_nil, List.mem_singleton, or_assoc]
    rfl
  constructor
  · intro hsound
    exact (hsound.own _ (Db.put_tables_self ..)).named (.check expr) ((hcases _).mpr (.inr rfl))
  · intro hnames
    refine h.extend ht (.refl _) (fun k hk => ?_) fun _ hr => .inl hr
    rcases (hcases k).mp hk with hold | rfl
    · exact .inl hold
    · exact .inr ⟨hnames, hrows⟩

theorem references_dropFirstKey (schema : TableSchema) {name : String} :
    ∀ {columns columns' : List ColumnDef}, dropFirstKey name columns = some columns' →
      columns'.map (·.name) = columns.map (·.name) ∧
        (∀ composite, columns'.map (·.constraints composite) =
          columns.map (·.constraints composite)) ∧
        { schema with columns := columns' }.references ⊆
          { schema with columns := columns }.references
  | [], _, h => nomatch h
  | c :: cs, columns', h => by
      rw [dropFirstKey] at h
      split at h
      · obtain rfl := Option.some.inj h
        refine ⟨rfl, fun _ => rfl, fun r hr => ?_⟩
        obtain ⟨c', hc', fk, hfk, rfl⟩ := mem_references.mp hr
        rcases List.mem_cons.mp hc' with rfl | hc'
        · exact mem_references.mpr
            ⟨c, List.mem_cons_self, fk, List.mem_of_mem_eraseP hfk, rfl⟩
        · exact mem_references.mpr ⟨c', List.mem_cons_of_mem _ hc', fk, hfk, rfl⟩
      · obtain ⟨rest, hrest, rfl⟩ := Option.map_eq_some_iff.mp h
        obtain ⟨hnames, hcon, hrefs⟩ := references_dropFirstKey schema hrest
        refine ⟨by rw [List.map_cons, List.map_cons, hnames],
          fun b => by rw [List.map_cons, List.map_cons, hcon], fun r hr => ?_⟩
        obtain ⟨c', hc', fk, hfk, rfl⟩ := mem_references.mp hr
        rcases List.mem_cons.mp hc' with rfl | hc'
        · exact mem_references.mpr ⟨c', List.mem_cons_self, fk, hfk, rfl⟩
        · obtain ⟨c₂, hc₂, fk₂, hfk₂, heq⟩ := mem_references.mp
            (hrefs (mem_references.mpr ⟨c', hc', fk, hfk, rfl⟩))
          exact mem_references.mpr ⟨c₂, List.mem_cons_of_mem _ hc₂, fk₂, hfk₂, heq⟩

end

section

variable {env : AlterEnv} {names : String → List String} {db : Db} {table newName : String}
  {t : Table}

theorem map_fkRenameTable {β : Type} {g : ColumnDef → β} {oldBare newBare : String}
    (hg : ∀ c fks, fks.map (·.refersTo) = c.foreignKeys.map (·.refersTo) →
      g { c with foreignKeys := fks } = g c) (columns : List ColumnDef) :
    (fkRenameTable oldBare newBare columns).map g = columns.map g := by
  rw [← map_fkMaterializeNames hg columns 0, fkRenameTable, List.map_map]
  refine List.map_congr_left fun c _ => hg c _ ?_
  rw [List.map_map]
  refine List.map_congr_left fun fk _ => ?_
  rw [comp_apply]
  split <;> rfl

def followRef (table newName : String) (r : Reference) : Reference :=
  if sameName r.refTable table then { r with refTable := newName } else r

theorem columnNames_followTable (t : Table) :
    (followTable table newName t).schema.columnNames = t.schema.columnNames :=
  List.map_map

theorem constraints_followTable (t : Table) :
    (followTable table newName t).schema.constraints = t.schema.constraints := by
  apply constraints_congr
  rw [List.map_map]
  rfl

theorem mem_references_followTable :
    r ∈ (followTable table newName t).schema.references ↔
      ∃ r₀ ∈ t.schema.references, r = followRef table newName r₀ := by
  have hkey : ∀ (c : ColumnDef) (fk : ForeignKey), followRef table newName
      ⟨c.name, fk.column, fk.refTable, fk.refColumn⟩ =
        ⟨c.name, (if sameName fk.refTable table then { fk with refTable := newName }
          else fk).column,
          (if sameName fk.refTable table then { fk with refTable := newName } else fk).refTable,
          (if sameName fk.refTable table then { fk with refTable := newName }
            else fk).refColumn⟩ := by
    intro c fk
    rw [followRef]
    split <;> rfl
  rw [mem_references]
  constructor
  · rintro ⟨c', hc', fk', hfk', rfl⟩
    obtain ⟨c, hc, rfl⟩ := List.mem_map.mp hc'
    obtain ⟨fk, hfk, rfl⟩ := List.mem_map.mp hfk'
    exact ⟨_, mem_references.mpr ⟨c, hc, fk, hfk, rfl⟩, (hkey c fk).symm⟩
  · rintro ⟨r₀, hr₀, rfl⟩
    obtain ⟨c, hc, fk, hfk, rfl⟩ := mem_references.mp hr₀
    exact ⟨_, List.mem_map_of_mem hc, _, List.mem_map_of_mem hfk, hkey c fk⟩

section

variable (ht : db.tables table = some t) (hfree : db.tables newName = none)
include ht hfree

theorem renamedTable_declares :
    ∃ t', (execRenameTable db table newName).1.tables newName = some t' ∧ t'.rows = t.rows ∧
      t'.schema.columnNames = t.schema.columnNames ∧
      t'.schema.constraints = t.schema.constraints ∧
      ∀ r, r ∈ t'.schema.references ↔ ∃ r₀ ∈ t.schema.references,
        r = followRef table newName r₀ := by
  simp only [execRenameTable, ht, hfree, Option.isSome_none, Bool.false_eq_true, if_false,
    update_self]
  set own := followTable table newName { t with schema := { t.schema with name := newName } }
  refine ⟨_, rfl, rfl, ?_, ?_, fun r => ?_⟩
  · exact (map_fkRenameTable (by exact fun _ _ _ => rfl) own.schema.columns).trans
      (columnNames_followTable _)
  · refine (constraints_congr ?_).trans (constraints_followTable
      { t with schema := { t.schema with name := newName } })
    exact map_fkRenameTable (by exact fun _ _ _ => rfl) own.schema.columns
  · rw [references_congr (map_fkRenameTable (fun c fks h => ?_) own.schema.columns)]
    · exact mem_references_followTable
    · rw [references_eq_map, references_eq_map, h]

theorem renamedTable_others {name : String} (hne : name ≠ newName) (hname : name ≠ table) :
    (execRenameTable db table newName).1.tables name =
      (db.tables name).map (followTable table newName) := by
  simp only [execRenameTable, ht, hfree, Option.isSome_none, Bool.false_eq_true, if_false]
  rw [update_of_ne hne, update_of_ne hne, update_of_ne hname]

theorem renamedTable_gone : (execRenameTable db table newName).1.tables table = none := by
  have hne : table ≠ newName := by
    rintro rfl
    exact nomatch ht.symm.trans hfree
  simp only [execRenameTable, ht, hfree, Option.isSome_none, Bool.false_eq_true, if_false]
  rw [update_of_ne hne, update_of_ne hne, update_self]
  rfl

theorem holds_renamedTable_iff :
    { r with refTable := newName }.Holds env (execRenameTable db table newName).1 rows ↔
      { r with refTable := table }.Holds env db rows := by
  obtain ⟨t', ht', hrows, hnames, -, -⟩ := renamedTable_declares ht hfree
  constructor
  · intro h
    refine h.congr rfl rfl rfl fun p hp hcol => ⟨t, ht, ?_, ?_⟩
    · obtain rfl := Option.some.inj (ht'.symm.trans hp)
      rwa [hnames] at hcol
    · obtain rfl := Option.some.inj (ht'.symm.trans hp)
      rw [hrows]
  · intro h
    refine h.congr rfl rfl rfl fun p hp hcol => ⟨t', ht', ?_, ?_⟩
    · obtain rfl := Option.some.inj (ht.symm.trans hp)
      rwa [hnames]
    · obtain rfl := Option.some.inj (ht.symm.trans hp)
      rw [hrows]

end

theorem followRef_refTable_iff :
    (followRef table newName r).refTable = newName ↔ ComesToRefer table newName r := by
  rw [followRef, ComesToRefer]
  by_cases hsame : sameName r.refTable table = true
  · simp [hsame]
  · rw [if_neg hsame]
    simp [hsame]

theorem followRef_eq (h : ComesToRefer table newName r) :
    followRef table newName r = { r with refTable := newName } := by
  rw [followRef]
  split
  · rfl
  · rename_i hsame
    rw [← h.resolve_left hsame]

theorem soundAt_renamedTable_iff (h : SoundAt env names db table) (ht : db.tables table = some t)
    (hfree : db.tables newName = none) :
    SoundAt env names (execRenameTable db table newName).1 newName ↔
      ∀ child t', db.tables child = some t' → ∀ r ∈ t'.schema.references,
        ComesToRefer table newName r → { r with refTable := table }.Holds env db t'.rows := by
  obtain ⟨t', ht', hrows, hnames, hcon, hrefs⟩ := renamedTable_declares ht hfree
  have hown := h.own t ht
  constructor
  · intro hsound child t₂ ht₂ r hr hcomes
    rw [← holds_renamedTable_iff ht hfree, ← followRef_eq hcomes]
    by_cases hchild : child = table
    · subst hchild
      obtain rfl := Option.some.inj (ht.symm.trans ht₂)
      rw [← hrows]
      exact (hsound.own t' ht').refers _ ((hrefs _).mpr ⟨r, hr, rfl⟩)
    · have hne : child ≠ newName := by
        rintro rfl
        exact nomatch hfree.symm.trans ht₂
      have htab := renamedTable_others ht hfree hne hchild
      rw [ht₂] at htab
      exact hsound.referring child _ htab _ (mem_references_followTable.mpr ⟨r, hr, rfl⟩)
        (followRef_refTable_iff.mpr hcomes)
  · intro hallowed
    have hkept : ∀ {r : Reference} {rows : List Row}, r.Holds env db rows →
        ¬ ComesToRefer table newName r →
        (followRef table newName r).Holds env (execRenameTable db table newName).1 rows := by
      intro r rows hr hnot
      have hfollow : followRef table newName r = r := if_neg fun hsame => hnot (.inl hsame)
      rw [hfollow]
      refine hr.congr rfl rfl rfl fun p hp hcol => ⟨followTable table newName p, ?_, ?_, rfl⟩
      · rw [renamedTable_others ht hfree (fun heq => hnot (.inr heq))
          (fun heq => hnot (.inl (heq ▸ sameName_self _))), hp]
        rfl
      · rwa [columnNames_followTable]
    have howned : ∀ r ∈ t'.schema.references,
        r.Holds env (execRenameTable db table newName).1 t'.rows := by
      intro r hr
      obtain ⟨r₀, hr₀, rfl⟩ := (hrefs r).mp hr
      rw [hrows]
      by_cases hcomes : ComesToRefer table newName r₀
      · rw [followRef_eq hcomes, holds_renamedTable_iff ht hfree]
        exact hallowed table t ht r₀ hr₀ hcomes
      · exact hkept (hown.refers r₀ hr₀) hcomes
    refine ⟨fun t₂ ht₂ => ?_, fun name t₂ ht₂ r hr href => ?_⟩
    · obtain rfl := Option.some.inj (ht'.symm.trans ht₂)
      refine ⟨hnames ▸ hown.distinct, hnames ▸ hown.stampFree, ?_, ?_, ?_, howned⟩
      · rw [hrows, hnames]
        exact hown.celled
      · rw [hcon, hnames]
        exact hown.named
      · rw [hcon, hrows]
        exact hown.holds
    · by_cases hname : name = newName
      · subst hname
        obtain rfl := Option.some.inj (ht'.symm.trans ht₂)
        exact howned r hr
      · have hne : name ≠ table := by
          rintro rfl
          exact nomatch (renamedTable_gone ht hfree).symm.trans ht₂
        rw [renamedTable_others ht hfree hname hne] at ht₂
        obtain ⟨t₀, ht₀, rfl⟩ := Option.map_eq_some_iff.mp ht₂
        obtain ⟨r₀, hr₀, rfl⟩ := mem_references_followTable.mp hr
        have hcomes := followRef_refTable_iff.mp href
        rw [followRef_eq hcomes]
        exact (holds_renamedTable_iff ht hfree).mpr (hallowed name t₀ ht₀ r₀ hr₀ hcomes)

end

variable {action : AlterAction}

section

variable {env : AlterEnv} {names : String → List String} {db : Db} {table : String} {t : Table}

theorem Refuses.exists_ok {out : Answer} {accepted clean : Prop}
    (h : Refuses db out accepted clean) (hacc : accepted) : ∃ m, out.2 = .ok m := by
  cases hout : out.2 with
  | ok m => exact ⟨m, rfl⟩
  | error e => exact absurd hacc (h.failed_iff.mp ⟨e, hout⟩)

theorem constraints_subset {keys : List UniqueKey} {checks : List CheckConstraint}
    (hkeys : keys ⊆ schema.uniqueKeys) (hchecks : checks ⊆ schema.checkConstraints) :
    { schema with uniqueKeys := keys, checkConstraints := checks }.constraints ⊆
      schema.constraints := by
  intro k hk
  rcases mem_constraints.mp hk with hcol | hk
  · exact mem_constraints.mpr (.inl hcol)
  · refine mem_constraints.mpr (.inr ?_)
    rw [TableSchema.tableConstraints] at hk ⊢
    rcases List.mem_append.mp hk with hk | hk
    · rcases List.mem_append.mp hk with hk | hk
      · exact List.mem_append_left _ (List.mem_append_left _ hk)
      · exact List.mem_append_left _ (List.mem_append_right _ (List.map_subset _ hkeys hk))
    · exact List.mem_append_right _ (List.map_subset _ hchecks hk)

theorem constraints_dropUnique_subset :
    { schema with
        columns := changeFirst p
          (fun c => { c with unique := false, uniqueConstraintName := none })
          schema.columns }.constraints ⊆ schema.constraints := by
  intro k hk
  rcases mem_constraints.mp hk with ⟨c, hc, hkc⟩ | hk
  · rcases mem_changeFirst hc with hc | ⟨c₀, hc₀, -, rfl⟩
    · exact mem_constraints.mpr (.inl ⟨c, hc, hkc⟩)
    · refine mem_constraints.mpr (.inl ⟨c₀, hc₀, mem_columnConstraints.mpr ?_⟩)
      rcases mem_columnConstraints.mp hkc with hk | ⟨hflag, hk⟩ | hk
      · exact .inl hk
      · rw [Bool.false_or] at hflag
        exact .inr (.inl ⟨Bool.or_eq_true_iff.mpr (.inr hflag), hk⟩)
      · exact .inr (.inr hk)
  · exact mem_constraints.mpr (.inr hk)

def nameAfter (table : String) : AlterAction → String
  | .renameTable newName => newName
  | _ => table

variable (ht : db.tables table = some t)
include ht

theorem execRenameColumn_tables {old new : String} (hr : Renames t old new) :
    (execRenameColumn db table old new).1.tables = (db.put table (t.renamed old new)).tables := by
  have hdup : ¬ t.schema.columns.any (fun c => c.name != old && sameName c.name new) := by
    simpa using hr.2
  simp only [execRenameColumn, ht, hr.1, Bool.not_true, Bool.false_eq_true, if_false, if_neg hdup]
  rfl

theorem execModifyColumn_tables (hm : Modifies env t column position) :
    ∃ rows columns, Converts env t column rows ∧
      columns.Perm (t.modified column rows).schema.columns ∧
      (execModifyColumn env db table column position).1 = db.put table
        ⟨{ (t.modified column rows).schema with columns := columns }, rows⟩ := by
  obtain ⟨m, hok⟩ := (execModifyColumn_refuses ht column position).exists_ok hm
  obtain ⟨hafter, current, hcurrent, rows, hrows⟩ := hm
  have hmissing : ¬ ((position.bind (·.after)).any fun after =>
      after != column.name && !t.schema.has after) := by
    intro hany
    obtain ⟨after, hbind, hbad⟩ := (Option.any_eq_true _ _).mp hany
    simp only [Bool.and_eq_true, bne_iff_ne, Bool.not_eq_true'] at hbad
    rcases hafter after hbind with heq | hhas
    · exact hbad.1 heq
    · exact Bool.false_ne_true (hbad.2.symm.trans hhas)
  simp only [execModifyColumn, ht, hcurrent, if_neg hmissing, hrows] at hok ⊢
  cases hplaced : placed (t.modified column rows).schema column.name position with
  | error e =>
    simp only [Table.modified] at hplaced
    simp only [hplaced] at hok
    cases hok
  | ok schema =>
    obtain ⟨columns, hperm, rfl⟩ := placed_perm hplaced
    simp only [Table.modified] at hplaced
    simp only [hplaced]
    exact ⟨rows, columns, ⟨current, hcurrent, hrows⟩, hperm, rfl⟩

theorem execAddIndex_tables (name : Option String)
    (columns : List String) : (execAddIndex db table name columns).1.tables = db.tables := by
  cases columns with
  | nil => rfl
  | cons front more =>
    simp only [execAddIndex, execCreateIndex, ht, Option.isNone_some, Bool.false_eq_true, if_false]
    split
    · rfl
    · cases more <;> rfl

variable (h : SoundAt env names db table)
include h

theorem execAddColumn_soundAt_iff (hreads : ReadsNamed env names)
    (hacc : AcceptsOn env db table t (.addColumn column position)) :
    SoundAt env names (execAddColumn db table column position).1 table ↔
      AddAllowed env names t column := by
  rw [← soundAt_grown_iff hreads h ht hacc.1]
  have hdup : ¬ t.schema.columns.any (fun c => sameName c.name column.name) := by
    simpa using hacc.1
  obtain ⟨m, hok⟩ := (execAddColumn_refuses ht column position).exists_ok hacc
  simp only [execAddColumn, ht, if_neg hdup] at hok ⊢
  cases hplaced : placed (t.grown column).schema column.name position with
  | error e =>
    simp only [Table.grown, newColumn] at hplaced
    simp only [hplaced] at hok
    cases hok
  | ok schema =>
    obtain ⟨columns, hperm, rfl⟩ := placed_perm hplaced
    simp only [Table.grown, newColumn] at hplaced
    simp only [hplaced]
    exact soundAt_put_perm_iff (t := t.grown column) hperm

theorem execDropColumn_soundAt_iff (hreads : ReadsNamed env names) {name : String}
    (hhas : t.schema.has name) :
    SoundAt env names (execDropColumn db table name).1 table ↔
      DropAllowed names db table t name := by
  rw [← soundAt_without_iff hreads h ht (mem_columnNames.mpr hhas)]
  simp only [execDropColumn, ht, if_pos hhas]
  rfl

theorem execModifyColumn_soundAt_iff (hreads : ReadsNamed env names)
    (hm : Modifies env t column position) :
    SoundAt env names (execModifyColumn env db table column position).1 table ↔
      ModifyAllowed env names db table t column := by
  obtain ⟨rows, columns, hconv, hperm, hdb⟩ := execModifyColumn_tables ht hm
  rw [← soundAt_modified_iff hreads h ht hconv, hdb]
  exact soundAt_put_perm_iff (t := t.modified column rows) hperm

theorem execChangeColumn_soundAt_iff (hreads : ReadsNamed env names) {old : String}
    (hacc : AcceptsOn env db table t (.changeColumn old column position)) :
    SoundAt env names (execChangeColumn env db table old column position).1 table ↔
      Allowed env names db table t (.changeColumn old column position) := by
  rw [AcceptsOn] at hacc
  rw [execChangeColumn, Allowed, if_neg (by simp [ht])]
  by_cases hname : old = column.name
  · rw [if_pos hname] at hacc ⊢
    rw [if_pos hname]
    exact execModifyColumn_soundAt_iff ht h hreads hacc
  · rw [if_neg hname] at hacc ⊢
    rw [if_neg hname]
    obtain ⟨hr, hm⟩ := hacc
    obtain ⟨m, hok, htab, -⟩ := execRenameColumn_ne ht hr hname
    obtain ⟨rows, columns, hconv, hperm, hdb⟩ := execModifyColumn_tables htab hm
    rw [← soundAt_changed_iff hreads h ht hr hconv,
      ← soundAt_put_perm_iff (t := (t.renamed old column.name).modified column rows) hperm]
    rw [hok]
    simp only [hdb]
    apply soundAt_congr
    rw [Db.put, Db.put, execRenameColumn_tables ht hr, Db.put, update_idem]
    rfl

theorem execAddForeignKey_soundAt_iff {fk : ForeignKey}
    (hacc : AcceptsOn env db table t (.addForeignKey name fk)) :
    SoundAt env names (execAddForeignKey env db table name fk).1 table ↔
      Allowed env names db table t (.addForeignKey name fk) := by
  obtain ⟨hhas, hfree, horphan⟩ := hacc
  set key := addedKey table t name fk with hkey
  have hcolumn : key.column = fk.column := rfl
  have hown : t.schema.has key.column := hhas
  have hallowed : Allowed env names db table t (.addForeignKey name fk) ↔
      (∃ p, db.tables key.refTable = some p ∧ key.refColumn ∈ p.schema.columnNames) ∧
        orphan env db key key.column t.rows = none := by
    rw [Allowed, hcolumn]
    refine and_congr_right fun _ => ⟨fun hskip => ?_, fun hnone _ => hnone⟩
    rcases horphan with hyes | hnone
    · exact hskip hyes
    · exact hnone
  have hdup : ¬ (name.getD "" ≠ "" ∧ t.schema.columns.any (fun c =>
      c.foreignKeys.any fun other => sameName other.name (name.getD ""))) := by
    rintro ⟨hgiven, hany⟩
    obtain ⟨c, hc, hany⟩ := List.any_eq_true.mp hany
    obtain ⟨other, hother, hsame⟩ := List.any_eq_true.mp hany
    exact Bool.false_ne_true ((hfree hgiven c hc other hother).symm.trans hsame)
  have hpass : (if env.skipFkChecks then none else orphan env db key fk.column t.rows) = none := by
    split
    · rfl
    · rename_i hskip
      exact horphan.resolve_left hskip
  rw [hallowed]
  simp only [execAddForeignKey, ht, hhas, Bool.not_true, Bool.false_eq_true, if_false, if_neg hdup]
  by_cases hgiven : name.getD "" = ""
  · have hk : { fk with
        name := fkNextName (bareTable table) (fkMaterializeNames (bareTable table) 0
          t.schema.columns)
        refTable := qualifiedParent table fk.refTable } = key := by
      rw [hkey, addedKey, if_pos hgiven]
    simp only [if_pos hgiven, hk, hpass]
    obtain ⟨hnames, hcon, hrefs⟩ := declares_fkMaterializeNames t.schema (bareTable table)
    exact soundAt_addKey_iff h ht hnames hcon hrefs hown
  · have hk : { fk with
        name := name.getD "", refTable := qualifiedParent table fk.refTable } = key := by
      rw [hkey, addedKey, if_neg hgiven]
    simp only [if_neg hgiven, hk, hpass]
    exact soundAt_addKey_iff h ht rfl rfl rfl hown

theorem SoundAt.execDropForeignKey (name : String) :
    SoundAt env names (execDropForeignKey db table name).1 table := by
  obtain ⟨hnames, hcon, hrefs⟩ := declares_fkMaterializeNames t.schema (bareTable table)
  simp only [Ddl.execDropForeignKey, ht]
  cases hdrop : dropFirstKey name (fkMaterializeNames (bareTable table) 0 t.schema.columns) with
  | none =>
    exact h.narrow ht (.of_eq hnames) (List.Perm.of_eq hcon).subset (List.Perm.of_eq hrefs).subset
  | some columns =>
    obtain ⟨hnames', hcon', hrefs'⟩ := references_dropFirstKey t.schema hdrop
    refine h.narrow ht (.of_eq (hnames'.trans hnames)) ?_ ?_
    · have hsame := @constraints_congr
        { t.schema with columns := fkMaterializeNames (bareTable table) 0 t.schema.columns } _
        (hcon' _)
      exact (List.Perm.of_eq (hsame.trans hcon)).subset
    · exact fun r hr => hrefs ▸ hrefs' hr

theorem SoundAt.execDropConstraint (name : String) :
    SoundAt env names (execDropConstraint db table name).1 table := by
  have hindex : (execDropIndex db name).1.tables = db.tables := by
    rw [execDropIndex]
    split
    · rfl
    · split
      · rfl
      · split <;> rfl
  simp only [Ddl.execDropConstraint, ht]
  split
  · exact h.narrow ht (.refl _)
      (constraints_subset (List.Subset.refl _) (List.filter_subset_self _))
      fun _ hr => hr
  · split
    · exact h.narrow ht (.refl _)
        (constraints_subset (List.filter_subset_self _) (List.Subset.refl _))
        fun _ hr => hr
    · split
      · refine h.narrow ht (.of_eq ?_) constraints_dropUnique_subset (List.Perm.of_eq ?_).subset
        · exact map_changeFirst (by exact fun _ => rfl) _
        · exact references_congr (map_changeFirst (by exact fun _ => rfl) _)
      · split
        · exact (soundAt_congr hindex).mpr h
        · exact (soundAt_congr hindex).mpr h

theorem execAddUnique_soundAt {column : String} {columns : List String}
    (hacc : AcceptsOn env db table t (.addUniqueConstraint name column columns)) :
    SoundAt env names (execAddUnique env db table name column columns).1 table := by
  rw [AcceptsOn] at hacc
  simp only [execAddUnique, ht]
  by_cases hlen : 1 < columns.length
  · rw [if_pos hlen] at hacc ⊢
    have hfind : (columns.find? fun c => !t.schema.has c) = none := by
      simpa using hacc.1
    simp only [execAddUniqueKey, hfind, hacc.2]
    exact h.addUniqueKey ht hacc.1 hacc.2
  · rw [if_neg hlen] at hacc ⊢
    simp only [execAddUniqueColumn, hacc.1, hacc.2, Bool.not_true, Bool.false_eq_true, if_false]
    exact h.addUniqueColumn ht hacc.2

theorem execSetDefault_soundAt
    {column : String} {value : Option String} (hhas : t.schema.has column) :
    SoundAt env names (execSetDefault db table column value).1 table := by
  simp only [execSetDefault, ht, if_pos hhas]
  refine h.narrow ht (.of_eq ?_) (List.Perm.of_eq ?_).subset (List.Perm.of_eq ?_).subset
  · exact map_changeFirst (by exact fun _ => rfl) _
  · exact constraints_congr (map_changeFirst (by exact fun _ => rfl) _)
  · exact references_congr (map_changeFirst (by exact fun _ => rfl) _)

theorem execSetAutoIncrement_soundAt (next : Int) :
    SoundAt env names (execSetAutoIncrement env db table next).1 table := by
  simp only [execSetAutoIncrement, ht]
  split
  · exact h
  · exact h.narrow ht (.refl _) (fun _ hk => hk) fun _ hr => hr

theorem execAlter_soundAt_iff (hreads : ReadsNamed env names) (hpart : t.schema.partitioned = false)
    (hacc : AcceptsOn env db table t action) :
    SoundAt env names (execAlter env db table action).1 (nameAfter table action) ↔
      Allowed env names db table t action := by
  have hnot : isPartitioned db table = false := by simp [isPartitioned, ht, hpart]
  rw [execAlter.eq_def, hnot, if_neg Bool.false_ne_true]
  cases action with
  | addColumn column position => exact execAddColumn_soundAt_iff ht h hreads hacc
  | dropColumn name => exact execDropColumn_soundAt_iff ht h hreads hacc
  | renameColumn old new =>
    rw [Allowed, ← soundAt_renamed_iff hreads h ht hacc]
    exact soundAt_congr (execRenameColumn_tables ht hacc)
  | modifyColumn column position => exact execModifyColumn_soundAt_iff ht h hreads hacc
  | renameTable newName => exact soundAt_renamedTable_iff h ht hacc
  | addForeignKey name fk => exact execAddForeignKey_soundAt_iff ht h hacc
  | dropForeignKey name => exact iff_of_true (h.execDropForeignKey ht name) trivial
  | addUniqueConstraint name column columns =>
    exact iff_of_true (execAddUnique_soundAt ht h hacc) trivial
  | addCheckConstraint name expr =>
    have hall : (liveVersions t.rows).all (env.evalCheck expr) := List.all_eq_true.mpr hacc
    simp only [execAddCheck, ht, if_pos hall]
    exact soundAt_addCheck_iff h ht hacc
  | dropConstraint name => exact iff_of_true (h.execDropConstraint ht name) trivial
  | noOp =>
    simp only [ht, Option.isNone_some, Bool.false_eq_true, if_false]
    exact iff_of_true h trivial
  | addIndex name columns =>
    exact iff_of_true ((soundAt_congr (execAddIndex_tables ht name columns)).mpr h) trivial
  | changeColumn old column position => exact execChangeColumn_soundAt_iff ht h hreads hacc
  | setAutoIncrement next => exact iff_of_true (execSetAutoIncrement_soundAt ht h next) trivial
  | setDefault column value => exact iff_of_true (execSetDefault_soundAt ht h hacc) trivial

end

section

variable {env : AlterEnv} {names : String → List String}

/-- The action is allowed on the table as the actions before it have left it. -/
def AllowedAt (env : AlterEnv) (names : String → List String) (s : Db × String)
    (action : AlterAction) : Prop :=
  ∀ t, s.1.tables s.2 = some t → Allowed env names s.1 s.2 t action

/-- Each action in turn is allowed. -/
def AllowedInTurn (env : AlterEnv) (names : String → List String) (db : Db) (table : String)
    (actions : List AlterAction) : Prop :=
  Parts.InTurn (alterStep env) (AllowedAt env names) (db, table) actions

theorem alterStep_of_accepts {s : Db × String} (h : Accepts env s.1 s.2 action) :
    (alterStep env s action).1 = ((execAlter env s.1 s.2 action).1, nameAfter s.2 action) := by
  obtain ⟨m, hok⟩ := (execAlter_refuses action).exists_ok h
  cases action with
  | renameTable newName =>
    rw [alterStep.eq_def]
    simp only [hok, nameAfter]
  | _ => rfl

theorem alterStep_soundAt_iff (hreads : ReadsNamed env names) {s : Db × String}
    (h : SoundAt env names s.1 s.2) (hacc : Accepts env s.1 s.2 action) :
    SoundAt env names (alterStep env s action).1.1 (alterStep env s action).1.2 ↔
      AllowedAt env names s action := by
  rw [alterStep_of_accepts hacc]
  obtain ⟨t, ht, hpart, hon⟩ := hacc
  rw [execAlter_soundAt_iff ht h hreads hpart hon, AllowedAt]
  simp [ht]

theorem acceptsAll_of_not_failed {db : Db} {table : String} {more : List AlterAction}
    (h : ¬ Failed (execAlterTable env db table action more)) :
    AcceptsAll env db table (action :: more) ∧
      (execAlterTable env db table action more).1 =
        (stateAfter env db table (action :: more)).1 := by
  rw [execAlterTable.eq_def] at h ⊢
  simp only at h ⊢
  split at h
  · exact absurd (failed_error _ _) h
  · have hall := not_failed_runActions_iff.mp h
    refine ⟨hall, ?_⟩
    exact congrArg Prod.fst (Parts.run_of_allPass (allPass_iff_acceptsAll.mpr hall)).1

/-- An ALTER TABLE that ends Ok keeps every constraint true when each of its actions is allowed on
the table as it finds it; and the constraints are true after each action exactly in that case, so
for a statement of one action the case is the exact one. -/
theorem alterTable_keepsConstraints_iff (env : AlterEnv) (names : String → List String)
    (hreads : ReadsNamed env names) (db : Db) (table : String) (action : AlterAction)
    (more : List AlterAction) (h : SoundAt env names db table)
    (hok : ¬ Failed (execAlterTable env db table action more)) :
    (AllowedInTurn env names db table (action :: more) →
      SoundAt env names (execAlterTable env db table action more).1
        (stateAfter env db table (action :: more)).2) ∧
    (AllowedInTurn env names db table (action :: more) ↔ ∀ pre, pre <+: action :: more →
      SoundAt env names (stateAfter env db table pre).1 (stateAfter env db table pre).2) ∧
    (more = [] → (SoundAt env names (execAlterTable env db table action more).1
        (stateAfter env db table (action :: more)).2 ↔
      ∀ t, db.tables table = some t → Allowed env names db table t action)) := by
  obtain ⟨hacc, hdb⟩ := acceptsAll_of_not_failed hok
  have hiff : AllowedInTurn env names db table (action :: more) ↔ ∀ pre, pre <+: action :: more →
      SoundAt env names (stateAfter env db table pre).1 (stateAfter env db table pre).2 :=
    Parts.inTurn_iff_invariant (I := fun s : Db × String => SoundAt env names s.1 s.2)
      (fun _ _ hs ha => alterStep_soundAt_iff hreads hs ha) h hacc
  rw [hdb]
  refine ⟨fun hallowed => hiff.mp hallowed _ (List.prefix_refl _), hiff, ?_⟩
  rintro rfl
  exact alterStep_soundAt_iff hreads h hacc.1

end

instance (env : AlterEnv) (rows : List Row) (k : Constraint) : Decidable (k.Holds env rows) :=
  match k with
  | .notNull column => inferInstanceAs (Decidable (∀ row ∈ liveVersions rows,
      (row.find column).getD executorNull ≠ executorNull))
  | .unique columns => inferInstanceAs (Decidable
      ((liveVersions rows).filterMap (uniqueKeyOf env.coll columns)).Nodup)
  | .check expr => inferInstanceAs (Decidable (∀ row ∈ liveVersions rows,
      env.evalCheck expr row))

/-- A server that evaluates `CHECK (day > 0)` on days that are numbers. -/
def bookingsEnv : AlterEnv :=
  { plainEnv with
    evalCheck := fun expr row => if expr = "day > 0" then row.find "day" != some "0" else true }

def bookingsNames (expr : String) : List String :=
  if expr = "day > 0" then ["day"] else []

theorem bookings_readsNamed : ReadsNamed bookingsEnv bookingsNames := by
  intro expr row row' h
  simp only [bookingsEnv]
  by_cases hexpr : expr = "day > 0"
  · rw [if_pos hexpr, if_pos hexpr, h "day" (by simp [bookingsNames, hexpr])]
  · rw [if_neg hexpr, if_neg hexpr]

def roomsTable : Table where
  schema :=
    { name := "rooms"
      columns := [{ name := "id", dataType := .int, primaryKey := true, notNull := true }]
      autoIncrementCounters := fun _ => none
      primaryKeyColumns := []
      checkConstraints := []
      uniqueKeys := []
      partitioned := false }
  rows := [Row.ofCells [("id", "1"), ("_xmax", "0")], Row.ofCells [("id", "2"), ("_xmax", "0")]]

/-- `bookings(id INT PRIMARY KEY, room INT REFERENCES rooms(id), day INT, UNIQUE (room, day),
CHECK (day > 0))` with two bookings. -/
def bookingsTable : Table where
  schema :=
    { name := "bookings"
      columns := [{ name := "id", dataType := .int, primaryKey := true, notNull := true },
        { name := "room", dataType := .int,
          foreignKeys := [⟨"room", "rooms", "id", .restrict, .restrict, "fk_room", true, true⟩] },
        { name := "day", dataType := .int }]
      autoIncrementCounters := fun _ => none
      primaryKeyColumns := []
      checkConstraints := [⟨none, "day > 0"⟩]
      uniqueKeys := [⟨none, ["room", "day"]⟩]
      partitioned := false }
  rows := [Row.ofCells [("id", "1"), ("room", "1"), ("day", "5"), ("_xmax", "0")],
    Row.ofCells [("id", "2"), ("room", "1"), ("day", "6"), ("_xmax", "0")]]

def bookingsDb : Db where
  tables := fun name =>
    if name = "bookings" then some bookingsTable
    else if name = "rooms" then some roomsTable else none
  indexMeta := []
  hashIndexMeta := []
  compositeIndexes := []

theorem bookings_soundAt : SoundAt bookingsEnv bookingsNames bookingsDb "bookings" := by
  have href : ∀ r ∈ bookingsTable.schema.references,
      r.Holds bookingsEnv bookingsDb bookingsTable.rows := by
    intro r hr
    have hr : r = ⟨"room", "room", "rooms", "id"⟩ := List.mem_singleton.mp hr
    subst hr
    have hparents : orphan bookingsEnv bookingsDb
        ⟨"room", "rooms", "id", .restrict, .restrict, "fk_room", true, true⟩ "room"
        bookingsTable.rows = none := by
      decide
    exact ⟨rfl, ⟨roomsTable, rfl, by decide⟩, orphan_eq_none_iff.mp hparents⟩
  refine ⟨fun t ht => ?_, fun name t ht r hr _ => ?_⟩
  · obtain rfl : bookingsTable = t := Option.some.inj ht
    exact ⟨by decide, by decide, by decide, by decide, by decide, href⟩
  · by_cases hname : name = "bookings"
    · subst hname
      obtain rfl : bookingsTable = t := Option.some.inj ht
      exact href r hr
    · simp only [bookingsDb, if_neg hname] at ht
      split at ht
      · obtain rfl : roomsTable = t := Option.some.inj ht
        exact nomatch hr
      · exact nomatch ht

/-- `ALTER TABLE bookings ADD COLUMN note VARCHAR(20), ALTER COLUMN day SET DEFAULT 1` keeps the
keys, the CHECK and the foreign key of the bookings true. -/
theorem alterTable_keepsConstraints_note :
    SoundAt bookingsEnv bookingsNames
      (execAlterTable bookingsEnv bookingsDb "bookings"
        (.addColumn { name := "note", dataType := .varchar 20 } none)
        [.setDefault "day" (some "1")]).1
      (stateAfter bookingsEnv bookingsDb "bookings"
        [.addColumn { name := "note", dataType := .varchar 20 } none,
          .setDefault "day" (some "1")]).2 := by
  have hok : (execAlterTable bookingsEnv bookingsDb "bookings"
      (.addColumn { name := "note", dataType := .varchar 20 } none)
      [.setDefault "day" (some "1")]).2 =
        .ok "Default of column 'day' in 'bookings' changed." := by
    decide
  refine (alterTable_keepsConstraints_iff bookingsEnv bookingsNames bookings_readsNamed bookingsDb
    "bookings" _ _ bookings_soundAt ?_).1 ⟨fun t _ => ⟨?_, ?_, ?_, ?_⟩, fun _ _ => trivial, trivial⟩
  · rintro ⟨e, he⟩
    exact nomatch hok.symm.trans he
  · decide
  · exact nofun
  · exact nofun
  · exact nofun

/-- `DROP COLUMN day` ends Ok with a UNIQUE key and a CHECK on a column that is not there;
`RENAME COLUMN room TO hall` with a foreign key on one; and `ADD COLUMN guests INT NOT NULL` with
NULLs in the new column. -/
theorem alterTable_leaves_key_of_dropped_column :
    SoundAt bookingsEnv bookingsNames bookingsDb "bookings" ∧
    (¬ Failed (execAlterTable bookingsEnv bookingsDb "bookings" (.dropColumn "day") []) ∧
      ¬ SoundAt bookingsEnv bookingsNames
        (execAlterTable bookingsEnv bookingsDb "bookings" (.dropColumn "day") []).1 "bookings") ∧
    (¬ Failed (execAlterTable bookingsEnv bookingsDb "bookings" (.renameColumn "room" "hall") []) ∧
      ¬ SoundAt bookingsEnv bookingsNames
        (execAlterTable bookingsEnv bookingsDb "bookings" (.renameColumn "room" "hall") []).1
        "bookings") ∧
    (¬ Failed (execAlterTable bookingsEnv bookingsDb "bookings"
        (.addColumn { name := "guests", dataType := .int, notNull := true } none) []) ∧
      ¬ SoundAt bookingsEnv bookingsNames
        (execAlterTable bookingsEnv bookingsDb "bookings"
          (.addColumn { name := "guests", dataType := .int, notNull := true } none) []).1
        "bookings") := by
  have hpass : ∀ {out : Answer} {m : String}, out.2 = .ok m → ¬ Failed out := by
    rintro out m hm ⟨e, he⟩
    exact nomatch hm.symm.trans he
  refine ⟨bookings_soundAt, ⟨hpass (m := "Column 'day' dropped from 'bookings'.") ?_, fun h => ?_⟩,
    ⟨hpass (m := "Column 'room' renamed to 'hall' in 'bookings'.") ?_, fun h => ?_⟩,
    ⟨hpass (m := "Column 'guests' added to 'bookings'.") ?_, fun h => ?_⟩⟩
  · decide
  · have hnamed := (h.own _ rfl).named (.unique ["room", "day"]) (by decide) "day"
      (by decide)
    exact absurd hnamed (by decide)
  · decide
  · have href := (h.own _ rfl).refers ⟨"hall", "room", "rooms", "id"⟩ (by decide)
    exact absurd href.ownColumn (by decide)
  · decide
  · have hholds := (h.own _ rfl).holds (.notNull "guests") (by decide)
    exact absurd hholds (by decide)

end RusqlEngine.Ddl
