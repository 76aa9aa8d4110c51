import RusqlEngine.BTreeMap
import RusqlEngine.Library.Transition
import RusqlEngine.NumericKey
import RusqlEngine.RowJson

/-!
# The composite index

An index over several columns. The entry of a row has for a key the keys of the column values and
behind them the primary key of the row, or all its values if the table has none, joined by NUL
bytes; its value is the row as JSON. The rows with given values in the first columns are a range of
the tree.
-/

namespace RusqlEngine

open NumericKey
open Buffer (Bytes)

structure CompositeIndex where
  columns : List Bytes
  pkColumns : List Bytes
  tree : BPlusTree Bytes Bytes

namespace CompositeIndex

variable (table : UnicodeCollation.Table) (json : RowJson.Nlohmann)

abbrev order : Bytes → Bytes → Ordering :=
  KeyOrder.cmpKeys table []

def makeKey : List Bytes → Bytes
  | [] => []
  | [value] => value
  | value :: value' :: values => value ++ 0 :: makeKey (value' :: values)

/-- The keys of the column values; none if the row lacks an indexed column. -/
def columnParts (index : CompositeIndex) (row : ByteRow) : Option (List Bytes) :=
  index.columns.mapM fun col => (row.lookup col).map (normalizeNumericKey table)

def isSystem (col : Bytes) : Bool :=
  col = [0x5F, 0x78, 0x6D, 0x69, 0x6E] ∨ col = [0x5F, 0x78, 0x6D, 0x61, 0x78]

/-- What tells the row from others: its primary key, or all its values. -/
def pkParts (index : CompositeIndex) (row : ByteRow) : List Bytes :=
  if index.pkColumns ≠ [] then index.pkColumns.map fun col => (row.lookup col).getD []
  else ((RowJson.sortedCells row).filter fun cell => !isSystem cell.1).map (·.2)

def keyFromRow (index : CompositeIndex) (row : ByteRow) : Option Bytes :=
  (index.columnParts table row).map fun parts => makeKey (parts ++ index.pkParts row)

/-- None if the row has no JSON text. -/
def insertRow (index : CompositeIndex) (row : ByteRow) : Option CompositeIndex :=
  match index.keyFromRow table row with
  | none => some index
  | some key => (RowJson.rowToJson json row).map fun text =>
    { index with tree := index.tree.insert (order table) key text }

def removeRow (index : CompositeIndex) (row : ByteRow) : CompositeIndex :=
  match index.keyFromRow table row with
  | none => index
  | some key => { index with tree := index.tree.remove (order table) key }

def rebuild (index : CompositeIndex) (rows : List ByteRow) : Option CompositeIndex :=
  rows.foldlM (insertRow table json) { index with tree := none }

def rowsWithPrefix (index : CompositeIndex) (values : List Bytes) : List Bytes :=
  if values = [] ∨ index.columns.length < values.length then []
  else
    let lo := makeKey (values.map (normalizeNumericKey table)) ++ [0]
    index.tree.rangeSearch (order table) lo (lo ++ [0xFF])

end CompositeIndex

inductive IndexOp
  | insertRow (row : ByteRow)
  | removeRow (row : ByteRow)
  | rebuild (rows : List ByteRow)

/-- An index and the rows that are present. -/
structure IndexedRows where
  index : CompositeIndex
  present : List ByteRow

namespace IndexedRows

variable (table : UnicodeCollation.Table) (json : RowJson.Nlohmann)

def step (s : IndexedRows) : IndexOp → Option IndexedRows
  | .insertRow row => (s.index.insertRow table json row).map fun index =>
    ⟨index, row :: s.present⟩
  | .removeRow row => some ⟨s.index.removeRow table row, s.present.erase row⟩
  | .rebuild rows => (s.index.rebuild table json rows).map fun index => ⟨index, rows⟩

/-- Two rows have one entry: their keys are equal in the tree. -/
def sameEntry (index : CompositeIndex) (row row' : ByteRow) : Prop :=
  ∃ key ∈ index.keyFromRow table row, ∃ key' ∈ index.keyFromRow table row',
    CompositeIndex.order table key key' = .eq

/-- The rows have every indexed column and each has an entry of its own: so has a row that is
inserted, and a row that is removed has no entry of another row. -/
def ownEntries (s : IndexedRows) : IndexOp → Prop
  | .insertRow row => (s.index.keyFromRow table row).isSome ∧
      ∀ row' ∈ s.present, ¬ sameEntry table s.index row row'
  | .removeRow row => ∀ row' ∈ s.present, sameEntry table s.index row row' → row' = row
  | .rebuild rows => (∀ row ∈ rows, (s.index.keyFromRow table row).isSome) ∧
      rows.Pairwise fun row row' => ¬ sameEntry table s.index row' row

/-- The row has the given values in the first columns, as keys. -/
def hasPrefix (index : CompositeIndex) (values : List Bytes) (row : ByteRow) : Prop :=
  (index.columnParts table row).map (·.take values.length) =
    some (values.map (normalizeNumericKey table))

instance (index : CompositeIndex) (values : List Bytes) (row : ByteRow) :
    Decidable (hasPrefix table index values row) :=
  inferInstanceAs (Decidable (_ = _))

/-- What is looked up and what the row has are read as they are: no NUL byte in the keys, keys that
the tree takes for equal are the same, and what stands behind them is not after the end of the
range. -/
structure ReadAsIs (index : CompositeIndex) (values : List Bytes) (row : ByteRow) : Prop where
  sought : ∀ value ∈ values, 0 ∉ normalizeNumericKey table value
  held : ∀ parts ∈ index.columnParts table row, ∀ part ∈ parts.take values.length, 0 ∉ part
  told : ∀ parts ∈ index.columnParts table row,
    List.Forall₂ (KeyOrder.alike table .mixed)
      (values.map (normalizeNumericKey table)) (parts.take values.length) →
    values.map (normalizeNumericKey table) = parts.take values.length
  behind : ∀ parts ∈ index.columnParts table row,
    parts.drop values.length ++ index.pkParts row ≠ []
  below : hasPrefix table index values row → ∀ parts ∈ index.columnParts table row,
    (CompositeIndex.order table
      (CompositeIndex.makeKey (parts.drop values.length ++ index.pkParts row)) [0xFF]).isLE

end IndexedRows

end RusqlEngine
