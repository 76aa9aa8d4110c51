import RusqlEngine.Row

/-!
# Table schemas

The parts of `TableSchema` that decide which rows have the same key.
-/

namespace RusqlEngine

structure ColumnDef where
  name : String
  primaryKey : Bool
  unique : Bool
deriving DecidableEq, Repr

/-- A UNIQUE key over several columns. -/
structure UniqueKey where
  columns : List String
deriving DecidableEq, Repr

structure TableSchema where
  columns : List ColumnDef
  primaryKeyColumns : List String
  uniqueKeys : List UniqueKey
deriving DecidableEq, Repr

abbrev Catalog := String → Option TableSchema

abbrev Tables := String → Option (List Row)

/-- The first column with the PRIMARY KEY flag, else `id`: how undo and replay find a row. -/
def pkCol (schema : Option TableSchema) : String :=
  match schema with
  | some sc => ((sc.columns.find? (·.primaryKey)).map (·.name)).getD "id"
  | none => "id"

/-- The column that log entries are keyed by: the first PRIMARY KEY column, else the first column of
the table. -/
def keyCol (schema : TableSchema) : String :=
  match schema.columns.find? (·.primaryKey) with
  | some c => c.name
  | none => (schema.columns.head?.map (·.name)).getD ""

/-- The cells of a stored row: one for each column, `NULL` being a text of its own, and the
two stamps. -/
def tableCols (schema : TableSchema) : Finset String :=
  insert "_xmin" (insert "_xmax" (schema.columns.map (·.name)).toFinset)

theorem xmax_mem_tableCols (schema : TableSchema) : "_xmax" ∈ tableCols schema :=
  Finset.mem_insert_of_mem (Finset.mem_insert_self _ _)

end RusqlEngine
