import RusqlEngine.CompositeIndex

/-!
# The hash index

A bucket is the rows of the table with one key in the indexed column, in their order. None is empty.
-/

namespace RusqlEngine

open Buffer (Bytes)

structure HashIndex where
  column : Bytes
  data : Finmap fun _ : Bytes => List ByteRow

namespace HashIndex

variable (table : UnicodeCollation.Table)

def keyOf (column : Bytes) (row : ByteRow) : Option Bytes :=
  (row.lookup column).map (NumericKey.normalizeNumericKey table)

def get (index : HashIndex) (key : Bytes) : List ByteRow :=
  (index.data.lookup (NumericKey.normalizeNumericKey table key)).getD []

def insertRow (index : HashIndex) (row : ByteRow) : HashIndex :=
  match keyOf table index.column row with
  | none => index
  | some key =>
    { index with data := index.data.insert key ((index.data.lookup key).getD [] ++ [row]) }

def hasPk (pk : List (Bytes × Bytes)) (row : ByteRow) : Bool :=
  pk.all fun cell => row.lookup cell.1 = some cell.2

def removeRow (index : HashIndex) (colVal : Bytes) (pk : List (Bytes × Bytes)) : HashIndex :=
  let key := NumericKey.normalizeNumericKey table colVal
  match index.data.lookup key with
  | none => index
  | some bucket =>
    let bucket := bucket.filter fun row => !hasPk pk row
    { index with
      data := if bucket = [] then index.data.erase key else index.data.insert key bucket }

def rebuild (index : HashIndex) (rows : List ByteRow) : HashIndex :=
  rows.foldl (insertRow table) { index with data := ∅ }

inductive Op
  | insertRow (row : ByteRow)
  | removeRow (colVal : Bytes) (pk : List (Bytes × Bytes))
  | rebuild (rows : List ByteRow)

def step (index : HashIndex) : Op → HashIndex
  | .insertRow row => index.insertRow table row
  | .removeRow colVal pk => index.removeRow table colVal pk
  | .rebuild rows => index.rebuild table rows

/-- The rows of the table: one that is removed has the value in the column and the key. -/
def present (column : Bytes) (rows : List ByteRow) : Op → List ByteRow
  | .insertRow row => rows ++ [row]
  | .removeRow colVal pk => rows.filter fun row =>
      !(keyOf table column row = NumericKey.normalizeNumericKey table colVal ∧ hasPk pk row)
  | .rebuild rows => rows

/-- Every bucket is the rows with its key, and none is empty. -/
def Holds (column : Bytes) (rows : List ByteRow) (index : HashIndex) : Prop :=
  index.column = column ∧ ∀ key, index.data.lookup key ≠ some [] ∧
    (index.data.lookup key).getD [] = rows.filter (keyOf table column · = key)

variable {table} {column : Bytes} {rows : List ByteRow} {index : HashIndex}

theorem Holds.insertRow (h : Holds table column rows index) (row : ByteRow) :
    Holds table column (rows ++ [row]) (index.insertRow table row) := by
  obtain ⟨rfl, h⟩ := h
  rw [HashIndex.insertRow]
  cases hrow : keyOf table index.column row with
  | none => exact ⟨rfl, fun k => by simp [h, hrow]⟩
  | some key =>
    refine ⟨rfl, fun k => ?_⟩
    by_cases hk : k = key
    · subst hk
      simp [h, hrow]
    · simp [Finmap.lookup_insert_of_ne _ hk, h, hrow, Ne.symm hk]

theorem Holds.removeRow (h : Holds table column rows index) (colVal : Bytes)
    (pk : List (Bytes × Bytes)) :
    Holds table column (present table column rows (.removeRow colVal pk))
      (index.removeRow table colVal pk) := by
  obtain ⟨rfl, h⟩ := h
  rw [HashIndex.removeRow, present]
  generalize NumericKey.normalizeNumericKey table colVal = key
  -- The rows of another bucket stay, those of the bucket are filtered.
  have hrows (k : Bytes) : (rows.filter fun row => !(keyOf table index.column row = key ∧
      hasPk pk row)).filter (keyOf table index.column · = k) =
      ((index.data.lookup k).getD []).filter fun row => !(k = key ∧ hasPk pk row) := by
    rw [(h k).2, List.filter_filter, List.filter_filter]
    grind
  cases hkey : index.data.lookup key with
  | none =>
    refine ⟨rfl, fun k => ⟨(h k).1, ?_⟩⟩
    rw [hrows]
    by_cases hk : k = key
    · rw [hk, hkey, Option.getD_none, List.filter_nil]
    · simp [hk]
  | some bucket =>
    refine ⟨rfl, fun k => ?_⟩
    rw [hrows]
    by_cases hk : k = key
    · subst hk
      by_cases hempty : bucket.filter (fun row => !hasPk pk row) = [] <;> simp [hkey, hempty]
    · by_cases hempty : bucket.filter (fun row => !hasPk pk row) = [] <;>
        simp [hempty, hk, Finmap.lookup_insert_of_ne, Finmap.lookup_erase_ne, (h k).1]

theorem Holds.insertRows (h : Holds table column rows index) (rows' : List ByteRow) :
    Holds table column (rows ++ rows') (rows'.foldl (HashIndex.insertRow table) index) := by
  induction rows' generalizing rows index with
  | nil => rwa [List.append_nil]
  | cons row rows' ih =>
    rw [List.append_cons]
    exact ih (h.insertRow row)

theorem Holds.rebuild (h : Holds table column rows index) (rows' : List ByteRow) :
    Holds table column rows' (index.rebuild table rows') := by
  have hempty : Holds table column [] { index with data := ∅ } := ⟨h.1, fun _ => by simp⟩
  exact hempty.insertRows rows'

/-- After any operations a spelling of a value is answered with the rows of its key, a bucket has
the rows of the table with its key, in their order, and no bucket is empty. -/
theorem buckets_exact (column : Bytes) (ops : List Op) (key : Bytes) :
    let index := ops.foldl (step table) ⟨column, ∅⟩
    let rows := ops.foldl (present table column) []
    index.get table key =
      rows.filter (keyOf table column · = NumericKey.normalizeNumericKey table key) ∧
    index.data.lookup key ≠ some [] ∧
    (index.data.lookup key).getD [] = rows.filter (keyOf table column · = key) := by
  have hrun : Holds table column (ops.foldl (present table column) [])
      (ops.foldl (step table) ⟨column, ∅⟩) := by
    refine List.foldl_rel ⟨rfl, fun _ => by simp⟩ fun op _ rows index h => ?_
    cases op with
    | insertRow row => exact h.insertRow row
    | removeRow colVal pk => exact h.removeRow colVal pk
    | rebuild rows => exact h.rebuild rows
  exact ⟨(hrun.2 _).2, hrun.2 key⟩

end HashIndex

end RusqlEngine
