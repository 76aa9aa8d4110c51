import RusqlEngine.Alter

/-!
# What a failed ALTER TABLE leaves behind

An action that is refused leaves the database as it was, except where it has two halves or names
keys on its way. A list of actions is therefore undone when the first action that is refused comes
before any change.
-/

namespace RusqlEngine.Ddl

open Parts

def Failed (out : Answer) : Prop :=
  ∃ e, out.2 = .error e

def Undone (db : Db) (out : Answer) : Prop :=
  Failed out → out.1 = db

@[simp] theorem failed_error (db : Db) (e : String) : Failed (db, .error e) :=
  ⟨e, rfl⟩

@[simp] theorem not_failed_ok (db : Db) (m : String) : ¬ Failed (db, .ok m) := by
  rintro ⟨e, he⟩
  exact nomatch he

/-- The column after which another one is placed is there. -/
def AfterKnown (schema : TableSchema) (column : String) (position : Option ColumnPosition) :
    Prop :=
  ∀ after, position.bind (·.after) = some after → after = column ∨ schema.has after

def Renames (t : Table) (old new : String) : Prop :=
  t.schema.has old ∧ ∀ c ∈ t.schema.columns, c.name ≠ old → sameName c.name new = false

/-- MODIFY COLUMN finds the column and its place, and every live value converts. -/
def Modifies (env : AlterEnv) (t : Table) (column : ColumnDef)
    (position : Option ColumnPosition) : Prop :=
  AfterKnown t.schema column.name position ∧ ∃ current, t.schema.find column.name = some current ∧
    ∃ rows, convertRows env
      { current with dataType := column.dataType, isUnsigned := column.isUnsigned } column 0
      t.rows = .ok rows

/-- The table with a column under another name. -/
def Table.renamed (t : Table) (old new : String) : Table :=
  ⟨{ t.schema with
      columns := t.schema.columns.map fun c =>
        if c.name == old then { c with name := new } else c },
    t.rows.map (renameCell old new)⟩

def IndexNameTaken (db : Db) (table name : String) : Prop :=
  ∃ d ∈ db.indexMeta ++ db.hashIndexMeta ++ db.compositeIndexes,
    d.table = table ∧ sameName d.key (table ++ "_" ++ name)

/-- The foreign key that ADD FOREIGN KEY makes. -/
def addedKey (table : String) (t : Table) (name : Option String) (fk : ForeignKey) : ForeignKey :=
  { fk with
    name :=
      if name.getD "" = "" then
        fkNextName (bareTable table) (fkMaterializeNames (bareTable table) 0 t.schema.columns)
      else name.getD ""
    refTable := qualifiedParent table fk.refTable }

/-- The checks of an action on a table that is there and is not partitioned. -/
def AcceptsOn (env : AlterEnv) (db : Db) (table : String) (t : Table) : AlterAction → Prop
  | .noOp => True
  | .setAutoIncrement _ => True
  | .addColumn column position =>
    (∀ c ∈ t.schema.columns, sameName c.name column.name = false) ∧
      AfterKnown t.schema column.name position
  | .dropColumn name => t.schema.has name
  | .renameColumn old new => Renames t old new
  | .modifyColumn column position => Modifies env t column position
  | .changeColumn old column position =>
    if old = column.name then Modifies env t column position
    else Renames t old column.name ∧ Modifies env (t.renamed old column.name) column position
  | .addIndex name columns =>
    ∃ front, columns.head? = some front ∧ ¬ IndexNameTaken db table (name.getD front)
  | .setDefault column _ => t.schema.has column
  | .renameTable newName => db.tables newName = none
  | .addForeignKey name fk =>
    t.schema.has fk.column ∧
      (name.getD "" ≠ "" → ∀ c ∈ t.schema.columns, ∀ other ∈ c.foreignKeys,
        sameName other.name (name.getD "") = false) ∧
      (env.skipFkChecks ∨
        orphan env db (addedKey table t name fk) fk.column t.rows = none)
  | .dropForeignKey name =>
    ∃ c ∈ fkMaterializeNames (bareTable table) 0 t.schema.columns, ∃ fk ∈ c.foreignKeys,
      namesKey name fk
  | .addUniqueConstraint name column columns =>
    if 1 < columns.length then
      (∀ c ∈ columns, t.schema.has c) ∧ repeatedKey env name columns t.rows = none
    else t.schema.has column ∧ repeatedKey env name [column] t.rows = none
  | .addCheckConstraint _ expr => ∀ row ∈ liveVersions t.rows, env.evalCheck expr row
  | .dropConstraint name =>
    (∃ c ∈ t.schema.checkConstraints, c.name = some name ∨ c.expression = name) ∨
      (∃ k ∈ t.schema.uniqueKeys, k.name = some name) ∨
      (∃ c ∈ t.schema.columns, c.uniqueConstraintName = some name) ∨
      saysDropped (execDropIndex db name).2

/-- The action passes its own checks on the database. -/
def Accepts (env : AlterEnv) (db : Db) (table : String) (action : AlterAction) : Prop :=
  ∃ t, db.tables table = some t ∧ t.schema.partitioned = false ∧ AcceptsOn env db table t action

theorem placed_isOk_iff {schema : TableSchema} {column : String}
    {position : Option ColumnPosition} (hcol : schema.has column) :
    (∃ placedSchema, placed schema column position = .ok placedSchema) ↔
      AfterKnown schema column position := by
  obtain ⟨moving, hmoving⟩ := has_iff_find.mp hcol
  cases position with
  | none => simp [placed, AfterKnown]
  | some p =>
    rw [placed, placeColumn, hmoving, AfterKnown]
    simp only [Option.bind_some]
    by_cases hself : p.after = some column
    · rw [if_pos hself]
      simp [hself]
    · rw [if_neg hself]
      cases hafter : p.after with
      | none => cases p.first <;> simp
      | some after =>
        have hne : after ≠ column := fun h => hself (by rw [hafter, h])
        cases hhas : schema.has after <;> cases p.first <;> simp [hhas, hne]

def KeysNamed (t : Table) : Prop :=
  ∀ c ∈ t.schema.columns, ∀ fk ∈ c.foreignKeys, fk.name ≠ ""

/-- A refused action has changed nothing: not a CHANGE COLUMN that has renamed, nor one that has
named the foreign keys. -/
def LeavesAsWas (t : Table) : AlterAction → Prop
  | .changeColumn old column _ => old = column.name ∨ ¬ Renames t old column.name
  | .addForeignKey name fk => name.getD "" ≠ "" ∨ t.schema.has fk.column = false ∨ KeysNamed t
  | .dropForeignKey _ => KeysNamed t
  | _ => True

theorem namedKey_eq_self_iff {bare : String} {n : Nat} {fk : ForeignKey} :
    namedKey bare n fk = fk ↔ fk.name ≠ "" := by
  rw [namedKey]
  split
  · rename_i h
    refine iff_of_false (fun heq => ?_) (not_not.mpr h)
    have hname : bare ++ "_ibfk_" ++ stdToString n = "" := (congrArg ForeignKey.name heq).trans h
    simp at hname
  · rename_i h
    exact iff_of_true rfl h

theorem mapIdx_namedKey_eq_self_iff {bare : String} {n : Nat} {fks : List ForeignKey} :
    (fks.mapIdx fun k fk => namedKey bare (n + k + 1) fk) = fks ↔ ∀ fk ∈ fks, fk.name ≠ "" := by
  constructor
  · intro h fk hfk
    obtain ⟨k, hk⟩ := List.mem_iff_getElem?.mp hfk
    have hkth : (fks.mapIdx fun k fk => namedKey bare (n + k + 1) fk)[k]? = some fk := by
      rw [h, hk]
    rw [List.getElem?_mapIdx, hk] at hkth
    exact namedKey_eq_self_iff.mp (Option.some.inj hkth)
  · intro h
    apply List.ext_getElem
    · simp
    · intro k h1 h2
      rw [List.getElem_mapIdx]
      exact namedKey_eq_self_iff.mpr (h _ (List.getElem_mem _))

theorem fkMaterializeNames_eq_self_iff {bare : String} : ∀ {n : Nat} {columns : List ColumnDef},
    fkMaterializeNames bare n columns = columns ↔ ∀ c ∈ columns, ∀ fk ∈ c.foreignKeys, fk.name ≠ ""
  | _, [] => by simp [fkMaterializeNames]
  | n, c :: cs => by
      rw [fkMaterializeNames, List.cons.injEq, fkMaterializeNames_eq_self_iff, List.forall_mem_cons,
        ← @mapIdx_namedKey_eq_self_iff bare n]
      refine and_congr_left fun _ => ⟨fun h => congrArg ColumnDef.foreignKeys h, fun h => ?_⟩
      rw [h]

variable {db : Db} {table : String}

theorem putSchema_columns_eq_self_iff {t : Table} {columns : List ColumnDef}
    (ht : db.tables table = some t) :
    db.putSchema table t { t.schema with columns := columns } = db ↔
      columns = t.schema.columns := by
  rw [Db.putSchema, Db.put_eq_self_iff, ht, Option.some.injEq]
  constructor
  · intro h
    exact (congrArg (fun t : Table => t.schema.columns) h).symm
  · rintro rfl
    rfl

/-- An answer that fails exactly when the action is not accepted, and that then leaves the
database as it was exactly in the case `clean`. -/
structure Refuses (db : Db) (out : Answer) (accepted clean : Prop) : Prop where
  failed_iff : Failed out ↔ ¬ accepted
  left_iff : Failed out → (out.1 = db ↔ clean)

namespace Refuses

variable {db d : Db} {accepted clean : Prop}

theorem ok {m : String} (h : accepted) : Refuses db (d, .ok m) accepted clean :=
  ⟨by simp [h], fun hf => (not_failed_ok _ _ hf).elim⟩

theorem error {e : String} (h : ¬ accepted) (hc : clean) :
    Refuses db (db, .error e) accepted clean :=
  ⟨by simp [h], fun _ => by simp [hc]⟩

theorem errorLeft {e : String} (h : ¬ accepted) (hd : d = db ↔ clean) :
    Refuses db (d, .error e) accepted clean :=
  ⟨by simp [h], fun _ => hd⟩

end Refuses

section

variable {env : AlterEnv} {db : Db} {table : String} {t : Table}

theorem dropFirstKey_isSome_iff {name : String} : ∀ {columns : List ColumnDef},
    (∃ left, dropFirstKey name columns = some left) ↔
      ∃ c ∈ columns, ∃ fk ∈ c.foreignKeys, namesKey name fk = true
  | [] => by simp [dropFirstKey]
  | c :: cs => by
      rw [dropFirstKey]
      split
      · rename_i h
        refine iff_of_true ⟨_, rfl⟩ ⟨c, List.mem_cons_self, ?_⟩
        exact List.any_eq_true.mp h
      · rename_i h
        constructor
        · rintro ⟨left, hleft⟩
          obtain ⟨rest, hrest, -⟩ := Option.map_eq_some_iff.mp hleft
          obtain ⟨c', hc', hfk⟩ := dropFirstKey_isSome_iff.mp ⟨rest, hrest⟩
          exact ⟨c', List.mem_cons_of_mem _ hc', hfk⟩
        · rintro ⟨c', hc', hfk⟩
          rcases List.mem_cons.mp hc' with rfl | hc'
          · exact absurd (List.any_eq_true.mpr hfk) h
          · obtain ⟨rest, hrest⟩ := dropFirstKey_isSome_iff.mpr ⟨c', hc', hfk⟩
            exact ⟨c :: rest, by rw [hrest, Option.map_some]⟩

theorem saysDropped_append (text : String) : saysDropped (text ++ " dropped.") := by
  rw [saysDropped, List.any_eq_true]
  refine ⟨" dropped.".toList, ?_, by decide⟩
  rw [List.mem_tails, String.toList_append]
  exact List.suffix_append ..

theorem execDropIndex_of_not_dropped {name : String}
    (h : ¬ saysDropped (execDropIndex db name).2) : (execDropIndex db name).1 = db := by
  have hdropped : ∀ kind, saysDropped (kind ++ name ++ "' dropped.") := by
    intro kind
    have htext : kind ++ name ++ "' dropped." = kind ++ name ++ "'" ++ " dropped." := by
      rw [@String.append_assoc (kind ++ name) "'"]
      rfl
    rw [htext]
    exact saysDropped_append _
  revert h
  rw [execDropIndex]
  split_ifs
  · exact fun h => absurd (hdropped _) h
  · exact fun h => absurd (hdropped _) h
  · exact fun h => absurd (hdropped _) h
  · exact fun _ => rfl

variable (ht : db.tables table = some t)
include ht

theorem execAddColumn_refuses (column : ColumnDef) (position : Option ColumnPosition) :
    Refuses db (execAddColumn db table column position)
      (AcceptsOn env db table t (.addColumn column position)) True := by
  simp only [execAddColumn, ht]
  by_cases hdup : t.schema.columns.any (fun c => sameName c.name column.name) = true
  · rw [if_pos hdup]
    refine .error (fun h => ?_) trivial
    obtain ⟨c, hc, hsame⟩ := List.any_eq_true.mp hdup
    exact Bool.false_ne_true ((h.1 c hc).symm.trans hsame)
  · rw [if_neg hdup]
    have hfree : ∀ c ∈ t.schema.columns, sameName c.name column.name = false := by
      simpa using hdup
    set newCol : ColumnDef :=
      { column with
        primaryKey := false, autoIncrement := false, foreignKeys := [], onUpdateNow := false }
    set grown : TableSchema := { t.schema with columns := t.schema.columns ++ [newCol] } with hgrown
    have hcol : grown.has newCol.name :=
      has_iff.mpr ⟨newCol, List.mem_append_right _ (List.mem_singleton_self _), rfl⟩
    -- the new column itself is no other column to follow
    have hafter : AfterKnown grown newCol.name position ↔
        AfterKnown t.schema column.name position := by
      have hhas : ∀ name, name = column.name ∨ grown.has name ↔
          name = column.name ∨ t.schema.has name := by
        intro name
        rw [has_iff, has_iff, hgrown]
        simp only [List.mem_append, List.mem_singleton]
        constructor
        · rintro (h | ⟨c, hc | rfl, rfl⟩)
          · exact .inl h
          · exact .inr ⟨c, hc, rfl⟩
          · exact .inl rfl
        · rintro (h | ⟨c, hc, rfl⟩)
          · exact .inl h
          · exact .inr ⟨c, .inl hc, rfl⟩
      exact forall₂_congr fun name _ => hhas name
    cases hplaced : placed grown newCol.name position with
    | error e =>
      refine .errorLeft (fun h => ?_) ?_
      · obtain ⟨schema, hschema⟩ := (placed_isOk_iff hcol).mpr (hafter.mpr h.2)
        rw [hplaced] at hschema
        exact nomatch hschema
      · simp only [List.dropLast_concat, iff_true]
        exact Db.put_self ht
    | ok schema =>
      exact .ok ⟨hfree, hafter.mp ((placed_isOk_iff hcol).mp ⟨schema, hplaced⟩)⟩

theorem execDropColumn_refuses (name : String) :
    Refuses db (execDropColumn db table name) (AcceptsOn env db table t (.dropColumn name))
      True := by
  simp only [execDropColumn, ht]
  by_cases hhas : t.schema.has name = true
  · rw [if_pos hhas]
    exact .ok hhas
  · rw [if_neg hhas]
    exact .error hhas trivial

theorem execRenameColumn_refuses (old new : String) :
    Refuses db (execRenameColumn db table old new) (Renames t old new) True := by
  simp only [execRenameColumn, ht]
  by_cases hhas : t.schema.has old = true
  · rw [if_neg (by simp [hhas])]
    by_cases hdup : t.schema.columns.any (fun c => c.name != old && sameName c.name new) = true
    · rw [if_pos hdup]
      refine .error (fun h => ?_) trivial
      obtain ⟨c, hc, hsame⟩ := List.any_eq_true.mp hdup
      simp only [Bool.and_eq_true, bne_iff_ne] at hsame
      exact Bool.false_ne_true ((h.2 c hc hsame.1).symm.trans hsame.2)
    · rw [if_neg hdup]
      refine .ok ⟨hhas, ?_⟩
      simpa using hdup
  · rw [if_pos (by simpa using hhas)]
    exact .error (fun h => hhas h.1) trivial

theorem execModifyColumn_refuses (column : ColumnDef) (position : Option ColumnPosition) :
    Refuses db (execModifyColumn env db table column position)
      (Modifies env t column position) True := by
  simp only [execModifyColumn, ht]
  cases hfind : t.schema.find column.name with
  | none =>
    refine .error ?_ trivial
    rintro ⟨-, current, hcurrent, -⟩
    exact nomatch hfind.symm.trans hcurrent
  | some current =>
    have hmissing : ((position.bind (·.after)).any fun after =>
        after != column.name && !t.schema.has after) ↔
          ¬ AfterKnown t.schema column.name position := by
      rw [AfterKnown]
      cases position.bind (·.after) <;> simp
    by_cases hafter : AfterKnown t.schema column.name position
    · simp only [if_neg (hmissing.not.mpr (not_not.mpr hafter))]
      cases hrows : convertRows env
          { current with dataType := column.dataType, isUnsigned := column.isUnsigned } column 0
          t.rows with
      | error e =>
        refine .error ?_ trivial
        rintro ⟨-, c, hc, rows, hok⟩
        obtain rfl : current = c := Option.some.inj (hfind.symm.trans hc)
        exact nomatch hrows.symm.trans hok
      | ok rows =>
        set changed : TableSchema :=
          { t.schema with
            columns := changeFirst (·.name == column.name) (modifiedDef column)
              t.schema.columns }
        have hhas : ∀ name, changed.has name = t.schema.has name := by
          intro name
          apply has_congr
          exact map_changeFirst (by simp [modifiedDef]) _
        have hknown : AfterKnown changed column.name position := by
          intro after h
          rw [hhas]
          exact hafter after h
        have hcol : changed.has column.name := by
          rw [hhas]
          exact has_iff_find.mpr ⟨current, hfind⟩
        obtain ⟨schema, hschema⟩ := (placed_isOk_iff hcol).mpr hknown
        simp only [hschema]
        exact .ok ⟨hafter, current, hfind, rows, hrows⟩
    · simp only [if_pos (hmissing.mpr hafter)]
      exact .error (fun h => hafter h.1) trivial

theorem execRenameColumn_ne {old new : String} (hr : Renames t old new) (hne : old ≠ new) :
    ∃ m, execRenameColumn db table old new = ((execRenameColumn db table old new).1, .ok m) ∧
      (execRenameColumn db table old new).1.tables table = some (t.renamed old new) ∧
      (execRenameColumn db table old new).1 ≠ db := by
  have hdup : ¬ t.schema.columns.any (fun c => c.name != old && sameName c.name new) := by
    simpa using hr.2
  have hok : ∃ m, (execRenameColumn db table old new).2 = .ok m ∧
      (execRenameColumn db table old new).1.tables table = some (t.renamed old new) := by
    simp only [execRenameColumn, ht, hr.1, Bool.not_true, Bool.false_eq_true, if_false, if_neg hdup]
    exact ⟨_, rfl, Db.put_tables_self ..⟩
  obtain ⟨m, hm, htables⟩ := hok
  refine ⟨m, Prod.ext rfl hm, htables, fun heq => ?_⟩
  rw [heq, ht] at htables
  have hsame : t.renamed old new = t := (Option.some.inj htables).symm
  obtain ⟨c, hc, hname⟩ := has_iff.mp hr.1
  rw [← hsame, Table.renamed] at hc
  obtain ⟨c', -, rfl⟩ := List.mem_map.mp hc
  split at hname
  · exact hne hname.symm
  · rename_i h
    exact h (by simpa using hname)

theorem execChangeColumn_refuses (old : String)
    (column : ColumnDef) (position : Option ColumnPosition) :
    Refuses db (execChangeColumn env db table old column position)
      (AcceptsOn env db table t (.changeColumn old column position))
      (old = column.name ∨ ¬ Renames t old column.name) := by
  rw [execChangeColumn, AcceptsOn, if_neg (by simp [ht])]
  by_cases hname : old = column.name
  · rw [if_pos hname, if_pos hname]
    have h := @execModifyColumn_refuses env _ _ _ ht column position
    exact ⟨h.failed_iff, fun hf => (h.left_iff hf).trans (by simp [hname])⟩
  · rw [if_neg hname, if_neg hname]
    by_cases hr : Renames t old column.name
    · obtain ⟨m, hm, htables, hne⟩ := execRenameColumn_ne ht hr hname
      rw [hm]
      have h := @execModifyColumn_refuses env _ _ _ htables column position
      refine ⟨by simpa [hr] using h.failed_iff, fun hf => ?_⟩
      simp only at hf ⊢
      have hleft := (h.left_iff hf).mpr trivial
      rw [hleft]
      simp [hne, hname, hr]
    · have h := execRenameColumn_refuses ht old column.name
      obtain ⟨e, he⟩ := h.failed_iff.mpr hr
      have hdb := (h.left_iff ⟨e, he⟩).mpr trivial
      cases hout : execRenameColumn db table old column.name with
      | mk d r =>
        rw [hout] at he hdb
        obtain rfl : r = .error e := he
        obtain rfl : d = db := hdb
        exact .error (fun h => hr h.1) (.inr hr)

theorem execAddIndex_refuses (name : Option String) (columns : List String) :
    Refuses db (execAddIndex db table name columns)
      (AcceptsOn env db table t (.addIndex name columns)) True := by
  cases columns with
  | nil =>
    refine .error ?_ trivial
    rintro ⟨front, hfront, -⟩
    exact nomatch hfront
  | cons front more =>
    have hacc : AcceptsOn env db table t (.addIndex name (front :: more)) ↔
        ¬ IndexNameTaken db table (name.getD front) := by
      simp [AcceptsOn]
    rw [hacc, execAddIndex, execCreateIndex, if_neg (by simp [ht])]
    have htaken : ((db.indexMeta.any fun d =>
          d.table == table && sameName d.key (table ++ "_" ++ name.getD front)) ||
        (db.hashIndexMeta.any fun d =>
          d.table == table && sameName d.key (table ++ "_" ++ name.getD front)) ||
        (db.compositeIndexes.any fun d =>
          d.table == table && sameName d.key (table ++ "_" ++ name.getD front))) ↔
          IndexNameTaken db table (name.getD front) := by
      rw [← List.any_append, ← List.any_append, List.any_eq_true]
      simp [IndexNameTaken]
    by_cases h : IndexNameTaken db table (name.getD front)
    · rw [if_pos (htaken.mpr h)]
      exact .error (not_not.mpr h) trivial
    · rw [if_neg (htaken.not.mpr h)]
      split
      · exact .ok h
      · exact .ok h

theorem execSetDefault_refuses (column : String) (value : Option String) :
    Refuses db (execSetDefault db table column value)
      (AcceptsOn env db table t (.setDefault column value)) True := by
  simp only [execSetDefault, ht]
  by_cases hhas : t.schema.has column = true
  · rw [if_pos hhas]
    exact .ok hhas
  · rw [if_neg hhas]
    exact .error hhas trivial

theorem execRenameTable_refuses (newName : String) :
    Refuses db (execRenameTable db table newName)
      (AcceptsOn env db table t (.renameTable newName)) True := by
  simp only [execRenameTable, ht]
  by_cases hfree : db.tables newName = none
  · rw [if_neg (by simp [hfree])]
    exact .ok hfree
  · rw [if_pos (by simpa [Option.isSome_iff_ne_none] using hfree)]
    exact .error hfree trivial

theorem execAddForeignKey_refuses (name : Option String) (fk : ForeignKey) :
    Refuses db (execAddForeignKey env db table name fk)
      (AcceptsOn env db table t (.addForeignKey name fk))
      (LeavesAsWas t (.addForeignKey name fk)) := by
  simp only [execAddForeignKey, ht]
  by_cases hhas : t.schema.has fk.column = true
  · rw [if_neg (by simp [hhas])]
    by_cases hdup : name.getD "" ≠ "" ∧ t.schema.columns.any (fun c =>
        c.foreignKeys.any fun other => sameName other.name (name.getD "")) = true
    · rw [if_pos hdup]
      refine .error (fun h => ?_) (.inl hdup.1)
      obtain ⟨c, hc, hother⟩ := List.any_eq_true.mp hdup.2
      obtain ⟨other, hmem, hsame⟩ := List.any_eq_true.mp hother
      exact Bool.false_ne_true ((h.2.1 hdup.1 c hc other hmem).symm.trans hsame)
    · rw [if_neg hdup]
      have hfree : name.getD "" ≠ "" → ∀ c ∈ t.schema.columns, ∀ other ∈ c.foreignKeys,
          sameName other.name (name.getD "") = false := by
        intro hgiven
        simpa [hgiven] using hdup
      have hkey : ({ fk with
            name :=
              if name.getD "" = "" then
                fkNextName (bareTable table)
                  (if name.getD "" = "" then
                    fkMaterializeNames (bareTable table) 0 t.schema.columns else t.schema.columns)
              else name.getD ""
            refTable := qualifiedParent table fk.refTable } : ForeignKey) =
          addedKey table t name fk := by
        rw [addedKey]
        by_cases hgiven : name.getD "" = ""
        · simp only [if_pos hgiven]
        · simp only [if_neg hgiven]
      simp only [hkey]
      cases horphan : if env.skipFkChecks = true then none
        else orphan env db (addedKey table t name fk) fk.column t.rows with
      | some e =>
        refine .errorLeft ?_ ?_
        · rintro ⟨-, -, hskip | hnone⟩
          · simp [hskip] at horphan
          · simp [hnone] at horphan
        · rw [putSchema_columns_eq_self_iff ht, LeavesAsWas, hhas]
          by_cases hgiven : name.getD "" = ""
          · simp only [hgiven, ne_eq, not_true_eq_false, false_or, Bool.true_eq_false]
            exact fkMaterializeNames_eq_self_iff
          · simp [hgiven]
      | none =>
        refine .ok ⟨hhas, hfree, ?_⟩
        by_cases hskip : env.skipFkChecks = true
        · exact .inl hskip
        · rw [if_neg hskip] at horphan
          exact .inr horphan
  · rw [if_pos (by simpa using hhas)]
    exact .error (fun h => hhas h.1) (.inr (.inl (by simpa using hhas)))

theorem execDropForeignKey_refuses (name : String) :
    Refuses db (execDropForeignKey db table name)
      (AcceptsOn env db table t (.dropForeignKey name)) (LeavesAsWas t (.dropForeignKey name)) := by
  simp only [execDropForeignKey, ht]
  cases hdrop : dropFirstKey name (fkMaterializeNames (bareTable table) 0 t.schema.columns) with
  | none =>
    refine .errorLeft (fun h => ?_) ?_
    · obtain ⟨left, hleft⟩ := dropFirstKey_isSome_iff.mpr h
      exact nomatch hdrop.symm.trans hleft
    · exact (putSchema_columns_eq_self_iff ht).trans fkMaterializeNames_eq_self_iff
  | some left => exact .ok (dropFirstKey_isSome_iff.mp ⟨left, hdrop⟩)

theorem execAddUnique_refuses (name : Option String) (column : String) (columns : List String) :
    Refuses db (execAddUnique env db table name column columns)
      (AcceptsOn env db table t (.addUniqueConstraint name column columns)) True := by
  simp only [execAddUnique, ht, AcceptsOn]
  by_cases hmany : 1 < columns.length
  · rw [if_pos hmany, if_pos hmany, execAddUniqueKey]
    cases hfind : columns.find? fun c => !t.schema.has c with
    | some c =>
      refine .error (fun h => ?_) trivial
      have hmissing := List.find?_some hfind
      simp [h.1 c (List.mem_of_find?_eq_some hfind)] at hmissing
    | none =>
      have hcols : ∀ c ∈ columns, t.schema.has c := by
        simpa using List.find?_eq_none.mp hfind
      cases hrepeat : repeatedKey env name columns t.rows with
      | some e => exact .error (fun h => nomatch h.2) trivial
      | none => exact .ok ⟨hcols, rfl⟩
  · rw [if_neg hmany, if_neg hmany, execAddUniqueColumn]
    by_cases hhas : t.schema.has column = true
    · rw [if_neg (by simp [hhas])]
      cases hrepeat : repeatedKey env name [column] t.rows with
      | some e => exact .error (fun h => nomatch h.2) trivial
      | none => exact .ok ⟨hhas, rfl⟩
    · rw [if_pos (by simpa using hhas)]
      exact .error (fun h => hhas h.1) trivial

theorem execAddCheck_refuses (name : Option String) (expr : String) :
    Refuses db (execAddCheck env db table name expr)
      (AcceptsOn env db table t (.addCheckConstraint name expr)) True := by
  simp only [execAddCheck, ht]
  by_cases hall : (liveVersions t.rows).all (env.evalCheck expr) = true
  · rw [if_pos hall]
    exact .ok (List.all_eq_true.mp hall)
  · rw [if_neg hall]
    exact .error (fun h => hall (List.all_eq_true.mpr h)) trivial

theorem execDropConstraint_refuses (name : String) :
    Refuses db (execDropConstraint db table name)
      (AcceptsOn env db table t (.dropConstraint name)) True := by
  simp only [execDropConstraint, ht]
  split
  · rename_i h
    exact .ok (.inl (by simpa using h))
  · rename_i hcheck
    split
    · rename_i h
      exact .ok (.inr (.inl (by simpa using h)))
    · rename_i hkey
      split
      · rename_i h
        exact .ok (.inr (.inr (.inl (by simpa using h))))
      · rename_i hcolumn
        split
        · rename_i h
          exact .ok (.inr (.inr (.inr h)))
        · rename_i hindex
          rw [execDropIndex_of_not_dropped hindex]
          refine .error ?_ trivial
          rintro (h | h | h | h)
          · exact hcheck (by simpa using h)
          · exact hkey (by simpa using h)
          · exact hcolumn (by simpa using h)
          · exact hindex h

end

section

variable {env : AlterEnv} {db : Db} {table : String}

theorem execAlter_of_none (ht : db.tables table = none) (action : AlterAction) :
    ∃ e, execAlter env db table action = (db, .error e) := by
  have hpart : isPartitioned db table = false := by simp [isPartitioned, ht]
  rw [execAlter.eq_def, hpart]
  cases action with
  | addIndex name columns =>
    cases columns with
    | nil => exact ⟨_, rfl⟩
    | cons front more => exact ⟨notFound table, by simp [execAddIndex, execCreateIndex, ht]⟩
  | changeColumn old column position =>
    exact ⟨notFound table, by simp [execChangeColumn, ht]⟩
  | _ =>
    simp [ht, execSetAutoIncrement, execAddColumn, execDropColumn, execRenameColumn,
      execModifyColumn, execSetDefault, execRenameTable, execAddForeignKey, execDropForeignKey,
      execAddUnique, execAddCheck, execDropConstraint]

theorem execAlter_refuses_on {t : Table} (ht : db.tables table = some t)
    (hpart : t.schema.partitioned = false) (action : AlterAction) :
    Refuses db (execAlter env db table action) (AcceptsOn env db table t action)
      (LeavesAsWas t action) := by
  have hnot : isPartitioned db table = false := by simp [isPartitioned, ht, hpart]
  rw [execAlter.eq_def, hnot, if_neg Bool.false_ne_true]
  cases action with
  | addColumn column position => exact execAddColumn_refuses ht column position
  | dropColumn name => exact execDropColumn_refuses ht name
  | renameColumn old new => exact execRenameColumn_refuses ht old new
  | modifyColumn column position => exact execModifyColumn_refuses ht column position
  | renameTable newName => exact execRenameTable_refuses ht newName
  | addForeignKey name fk => exact execAddForeignKey_refuses ht name fk
  | dropForeignKey name => exact execDropForeignKey_refuses ht name
  | addUniqueConstraint name column columns => exact execAddUnique_refuses ht name column columns
  | addCheckConstraint name expr => exact execAddCheck_refuses ht name expr
  | dropConstraint name => exact execDropConstraint_refuses ht name
  | noOp =>
    simp only [ht, Option.isNone_some, Bool.false_eq_true, if_false]
    exact .ok trivial
  | addIndex name columns => exact execAddIndex_refuses ht name columns
  | changeColumn old column position => exact execChangeColumn_refuses ht old column position
  | setAutoIncrement next =>
    simp only [execSetAutoIncrement, ht]
    exact .ok trivial
  | setDefault column value => exact execSetDefault_refuses ht column value

/-- A refused action has changed nothing of the database that it was given. -/
def KeepsDb (db : Db) (table : String) (action : AlterAction) : Prop :=
  ∀ t, db.tables table = some t → t.schema.partitioned = false → LeavesAsWas t action

theorem execAlter_refuses (action : AlterAction) :
    Refuses db (execAlter env db table action) (Accepts env db table action)
      (KeepsDb db table action) := by
  cases ht : db.tables table with
  | none =>
    obtain ⟨e, he⟩ := @execAlter_of_none env _ _ ht action
    rw [he]
    refine .error ?_ ?_
    · rintro ⟨t, h, -⟩
      exact nomatch ht.symm.trans h
    · intro t h
      exact nomatch ht.symm.trans h
  | some t =>
    cases hpart : t.schema.partitioned with
    | true =>
      have hyes : isPartitioned db table := by simp [isPartitioned, ht, hpart]
      rw [execAlter.eq_def, if_pos hyes]
      refine .error ?_ ?_
      · rintro ⟨t', h, hp, -⟩
        obtain rfl : t = t' := Option.some.inj (ht.symm.trans h)
        exact nomatch hpart.symm.trans hp
      · intro t' h hp
        obtain rfl : t = t' := Option.some.inj (ht.symm.trans h)
        exact nomatch hpart.symm.trans hp
    | false =>
      have h := @execAlter_refuses_on env _ _ _ ht hpart action
      have hacc : Accepts env db table action ↔ AcceptsOn env db table t action := by
        simp [Accepts, ht, hpart]
      have hkeep : KeepsDb db table action ↔ LeavesAsWas t action := by
        simp [KeepsDb, ht, hpart]
      rw [hacc, hkeep]
      exact h

end

section

variable {env : AlterEnv}

/-- The actions pass their own checks in turn, each on the table as the ones before leave it. -/
def AcceptsAll (env : AlterEnv) (db : Db) (table : String) (actions : List AlterAction) : Prop :=
  InTurn (alterStep env) (fun s a => Accepts env s.1 s.2 a) (db, table) actions

/-- The database and the name of the table after actions that pass. -/
def stateAfter (env : AlterEnv) (db : Db) (table : String) (actions : List AlterAction) :
    Db × String :=
  after (alterStep env) (db, table) actions

theorem refused_alterStep_iff {s : Db × String} {a : AlterAction} :
    Refused (alterStep env) s a ↔ ¬ Accepts env s.1 s.2 a :=
  (execAlter_refuses a).failed_iff

variable {actions : List AlterAction}

theorem allPass_iff_acceptsAll :
    AllPass (alterStep env) (db, table) actions ↔ AcceptsAll env db table actions :=
  inTurn_congr fun _ _ => by rw [refused_alterStep_iff, not_not]

theorem not_failed_runActions_iff :
    ¬ Failed (runActions env db table actions) ↔ AcceptsAll env db table actions := by
  rw [← allPass_iff_acceptsAll, ← run_isOk_iff (m := ""), Failed, runActions]
  cases (run (alterStep env) (db, table) (.ok "") actions).2 <;> simp

def IsNoOp (_ : Db × String) (a : AlterAction) : Prop :=
  a = .noOp

theorem alterStep_noOp (s : Db × String) : (alterStep env s .noOp).1 = s := by
  have hleft : (execAlter env s.1 s.2 .noOp).1 = s.1 := by
    rw [execAlter.eq_def]
    split
    · rfl
    · dsimp only
      split <;> rfl
  exact Prod.ext hleft rfl

theorem alterStep_of_refused {s : Db × String} {a : AlterAction} (ha : ¬ Accepts env s.1 s.2 a)
    (hkeeps : KeepsDb s.1 s.2 a) : (alterStep env s a).1 = s := by
  obtain ⟨e, he⟩ := (execAlter_refuses a).failed_iff.mpr ha
  have hname : (alterStep env s a).1.2 = s.2 := by
    simp only [alterStep, he]
  exact Prod.ext (((execAlter_refuses a).left_iff ⟨e, he⟩).mpr hkeeps) hname

theorem known_alterStep (env : AlterEnv) :
    Known (fun s a => Accepts env s.1 s.2 a) IsNoOp (fun s a => KeepsDb s.1 s.2 a)
      (alterStep env) where
  refused_iff := refused_alterStep_iff
  idle_left h := h ▸ alterStep_noOp _
  clean_left := alterStep_of_refused

/-- The first action that is no no-op is refused, and has no first half that stays. -/
abbrev FirstActionRefused (env : AlterEnv) (db : Db) (table : String)
    (actions : List AlterAction) : Prop :=
  FirstRefused (fun s a => Accepts env s.1 s.2 a) IsNoOp (fun s a => KeepsDb s.1 s.2 a) (db, table)
    actions

/-- An action is refused behind one that has been carried out. -/
abbrev RefusedBehindAction (env : AlterEnv) (db : Db) (table : String)
    (actions : List AlterAction) : Prop :=
  RefusedLate (fun s a => Accepts env s.1 s.2 a) IsNoOp (fun _ _ => False) (alterStep env)
    (db, table) actions

/-- `alter_actions_error` finds an error in the list. -/
def Predicted (db : Db) (table : String) (actions : List AlterAction) : Prop :=
  ∃ t e, db.tables table = some t ∧ alterActionsError t.schema table actions = some e

/-- With several actions, `alter_actions_error` names an error; or every action passes its own
checks in turn, so that nothing fails; or the first action is the one that is refused. -/
def LeavesNothing (env : AlterEnv) (db : Db) (table : String) (action : AlterAction)
    (more : List AlterAction) : Prop :=
  (more ≠ [] ∧ Predicted db table (action :: more)) ∨
    AcceptsAll env db table (action :: more) ∨ FirstActionRefused env db table (action :: more)

theorem execAlterTable_eq {action : AlterAction} {more : List AlterAction}
    (h : ¬ (more ≠ [] ∧ Predicted db table (action :: more))) :
    execAlterTable env db table action more = runActions env db table (action :: more) := by
  have hnone : (if more.isEmpty = true then none else (db.tables table).bind fun t =>
      alterActionsError t.schema table (action :: more)) = none := by
    split
    · rfl
    · rename_i hmore
      rw [Option.eq_none_iff_forall_ne_some]
      intro e he
      obtain ⟨t, ht, he⟩ := Option.bind_eq_some_iff.mp he
      exact h ⟨by simpa using hmore, t, e, ht, he⟩
  simp only [execAlterTable, hnone]

theorem undone_execAlterTable {action : AlterAction} {more : List AlterAction} :
    (LeavesNothing env db table action more → Undone db (execAlterTable env db table action more)) ∧
      (Undone db (execAlterTable env db table action more) →
        LeavesNothing env db table action more ∨
          RefusedBehindAction env db table (action :: more)) := by
  by_cases hpred : more ≠ [] ∧ Predicted db table (action :: more)
  · refine ⟨fun _ _ => ?_, fun _ => .inl (.inl hpred)⟩
    obtain ⟨hmore, t, e, ht, he⟩ := hpred
    simp only [execAlterTable, ht, Option.bind_some, he, List.isEmpty_iff, if_neg hmore]
  · rw [execAlterTable_eq hpred]
    constructor
    · rintro (h | h)
      · exact (hpred h).elim
      · rintro ⟨e, he⟩
        exact congrArg Prod.fst ((known_alterStep env).undone h e he)
    · intro h
      have hfirst : ∀ a, ¬ Accepts env db table a → (alterStep env (db, table) a).1.1 = db →
          KeepsDb db table a := fun a ha =>
        ((execAlter_refuses a).left_iff ((execAlter_refuses a).failed_iff.mpr ha)).mp
      rcases (known_alterStep env).cases_of_undone (fun s => s.1 = db) (fun _ _ => False)
        (fun a ha hleft => .inl (hfirst a ha hleft)) (fun e he => h ⟨e, he⟩) with
        hall | hfirst | hbehind
      · exact .inl (.inr (.inl hall))
      · exact .inl (.inr (.inr hfirst))
      · exact .inr hbehind

/-- The pairs of a RENAME TABLE pass their checks in turn. -/
def RenamesAll (env : AlterEnv) (db : Db) (pairs : List (String × String)) : Prop :=
  InTurn (fun db pair => execAlter env db pair.1 (.renameTable pair.2))
    (fun db pair => Accepts env db pair.1 (.renameTable pair.2)) db pairs

theorem refused_rename_iff {d : Db} {pair : String × String} :
    Refused (fun db pair => execAlter env db pair.1 (.renameTable pair.2)) d pair ↔
      ¬ Accepts env d pair.1 (.renameTable pair.2) :=
  (execAlter_refuses (.renameTable pair.2)).failed_iff

theorem undone_execRenameTables {pairs : List (String × String)} (h : RenamesAll env db pairs ∨
      ∃ pair ∈ pairs.head?, ¬ Accepts env db pair.1 (.renameTable pair.2)) :
    Undone db (execRenameTables env db pairs) := by
  rcases h with hall | ⟨pair, hpair, hrefused⟩
  · rintro ⟨e, he⟩
    have hpass : AllPass (fun db pair => execAlter env db pair.1 (.renameTable pair.2)) db pairs :=
      (inTurn_congr fun d pair => by rw [refused_rename_iff, not_not]).mpr hall
    obtain ⟨m, hm⟩ := (run_of_allPass (m := "") hpass).2
    exact nomatch hm.symm.trans he
  · obtain ⟨rest, rfl⟩ := List.head?_eq_some_iff.mp hpair
    intro _
    rw [execRenameTables, run_cons_of_refused _ _ (refused_rename_iff.mpr hrefused)]
    exact ((execAlter_refuses _).left_iff ((execAlter_refuses _).failed_iff.mpr hrefused)).mpr
      fun t _ _ => trivial

end

/-- A server whose values are the texts as they are written. -/
def plainEnv : AlterEnv where
  coerce _ val _ := .ok val
  matchesType _ _ := true
  debugType _ := ""
  evalCheck _ _ := true
  fromChars _ := none
  coll := asciiCollation
  skipFkChecks := false

def ordersSchema : TableSchema where
  name := "orders"
  columns := [⟨"id", .int, true, true, false, none, false, none, [], none, false, false⟩,
    ⟨"item", .varchar 20, false, false, false, none, false, none, [], none, false, false⟩]
  autoIncrementCounters := fun _ => none
  primaryKeyColumns := []
  checkConstraints := []
  uniqueKeys := []
  partitioned := false

/-- Two orders of the same item. -/
def ordersDb : Db where
  tables := fun name => if name = "orders" then some ⟨ordersSchema,
    [Row.ofCells [("id", "1"), ("item", "tea"), ("_xmax", "0")],
      Row.ofCells [("id", "2"), ("item", "tea"), ("_xmax", "0")]]⟩ else none
  indexMeta := []
  hashIndexMeta := []
  compositeIndexes := []

end RusqlEngine.Ddl
