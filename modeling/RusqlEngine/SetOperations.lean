import RusqlEngine.OrderRows
import RusqlEngine.Library.Copies
import Mathlib.Data.List.DropRight
import Mathlib.Data.List.SplitLengths

/-!
# Set operations

UNION, INTERSECT and EXCEPT take the rows that are read from the answers of their sides, the right
ones by position. Rows are the same where the collation keys of all their columns are. Each
operation looks through its rows with a loop of its own; the rows that are kept are ordered, and a
slice of them is the answer.
-/

namespace RusqlEngine.SetOperations

open UnicodeCollation
open Buffer (Bytes)
open DigitText (IsDigit)
open OrderRows.SetOps (rowOrderLess)

def ascii (text : String) : Bytes :=
  text.toList.map fun c => Fin.ofNat 256 c.toNat

def xminName : Bytes :=
  ascii "_xmin"

def xmaxName : Bytes :=
  ascii "_xmax"

/-- The columns and the rows that `parse_table_output` reads; an answer without rows has none. -/
structure TableRows where
  cols : List Bytes
  rows : List ByteRow

/-- What the operations read beside their sides: the collation, the environment of a long sort and
`std::sort`, which is not stable. -/
structure Setting where
  table : Table
  parallelEnabled : Bool
  parallelMinRows : ℕ
  cpus : ℕ
  sort : (ByteRow → ByteRow → Bool) → List ByteRow → List ByteRow
  sort_perm : ∀ less rows, (sort less rows).Perm rows

/-- One round of `std::merge`: two slices after each other become one. -/
def mergePairs (less : ByteRow → ByteRow → Bool) : List (List ByteRow) → List (List ByteRow)
  | a :: b :: rest => a.merge b (fun x y => !less y x) :: mergePairs less rest
  | rest => rest

theorem length_mergePairs (less : ByteRow → ByteRow → Bool) :
    ∀ chunks, (mergePairs less chunks).length ≤ chunks.length
  | [] => Nat.le_refl 0
  | [_] => Nat.le_refl 1
  | _ :: _ :: rest => by
      have := length_mergePairs less rest
      simp only [mergePairs, List.length_cons]
      omega

def mergeChunks (less : ByteRow → ByteRow → Bool) : List (List ByteRow) → List ByteRow
  | [] => []
  | [a] => a
  | a :: b :: rest => mergeChunks less (mergePairs less (a :: b :: rest))
  termination_by chunks => chunks.length
  decreasing_by
    have := length_mergePairs less rest
    simp only [mergePairs, List.length_cons]
    omega

/-- `parallel_sort`: slices of about the same length are sorted each and then merged. -/
def parallelSort (env : Setting) (less : ByteRow → ByteRow → Bool) (rows : List ByteRow) :
    List ByteRow :=
  let cpus := if env.cpus = 0 then 4 else env.cpus
  let chunks := min cpus rows.length
  if chunks < 2 then env.sort less rows
  else
    let lengths := (List.range chunks).map fun c =>
      rows.length / chunks + if c < rows.length % chunks then 1 else 0
    mergeChunks less ((lengths.splitLengths rows).map (env.sort less))

section

def ieq (a b : Bytes) : Bool :=
  a.map lowerCase = b.map lowerCase

def bareName (column : Bytes) : Bytes :=
  column.rtakeWhile (· ≠ NumericText.point)

def unknownColumn (column : Bytes) : Bytes :=
  ascii "Unknown column '" ++ column ++ ascii "' in 'order clause'"

/-- An item of `resolve_set_order`, by position or by name. -/
def resolveItem (cols : List Bytes) (ord : OrderRows.OrderBy) : Except Bytes OrderRows.OrderBy :=
  if ord.column ≠ [] ∧ ∀ b ∈ ord.column, IsDigit b then
    let n := if 9 < ord.column.length then 0 else DigitText.value ord.column
    if n < 1 ∨ cols.length < n then .error (unknownColumn ord.column)
    else .ok { ord with column := cols.getD (n - 1) [] }
  else if ord.column ∈ cols then .ok ord
  else
    match cols.find? fun c => ieq c (bareName ord.column) with
    | some spelled => .ok { ord with column := spelled }
    | none => .error (unknownColumn ord.column)

def resolveSetOrder (orderBy : List OrderRows.OrderBy) (cols : List Bytes) :
    Except Bytes (List OrderRows.OrderBy) :=
  orderBy.mapM (resolveItem cols)

variable (env : Setting)

/-- The rows in the order of the items. -/
def ordered (orderBy : List OrderRows.OrderBy) (rows : List ByteRow) : List ByteRow :=
  if orderBy.isEmpty then rows
  else if env.parallelEnabled && decide (env.parallelMinRows ≤ rows.length) then
    parallelSort env (fun a b => rowOrderLess env.table a b orderBy) rows
  else rows.mergeSort fun a b => !rowOrderLess env.table b a orderBy

def applySetPostprocess (result : List ByteRow) (orderBy : List OrderRows.OrderBy)
    (limit offset : Option ℕ) : List ByteRow :=
  let result := ordered env orderBy result
  let result :=
    match offset with
    | some n => result.drop (min n result.length)
    | none => result
  match limit with
  | some n => if n < result.length then result.take n else result
  | none => result

end

section

variable (table : Table)

def rowKey (cols : List Bytes) (row : ByteRow) : List Bytes :=
  cols.map fun c => (row.lookup c).elim [] (key table)

/-- The key of a row of the right side, by position. -/
def rightKey (cols rightCols : List Bytes) (row : ByteRow) : List Bytes :=
  cols.zipIdx.map fun (c, i) =>
    key table ((row.lookup (rightCols.getD i c)).getD [])

end

/-- A row of the right side under the names of the left one. -/
def remap (cols rightCols : List Bytes) (row : ByteRow) : ByteRow :=
  let named := cols.zipIdx.foldl (fun (r : ByteRow) (c, i) =>
    r.insert c ((rightCols[i]?.bind row.lookup).getD [])) ∅
  (named.insert xminName (ascii "1")).insert xmaxName (ascii "0")

section

variable (key : ByteRow → List Bytes)

/-- The loop of INTERSECT and EXCEPT without ALL. -/
def keepDistinct (wanted : List Bytes → Bool) : List ByteRow → List ByteRow → List ByteRow
  | result, [] => result
  | result, row :: rows =>
    if wanted (key row) && !result.any (fun r => key r = key row) then
      keepDistinct wanted (result ++ [row]) rows
    else keepDistinct wanted result rows

/-- The first row of the right side with this key that is not matched yet. -/
def firstFree (rightKeys : List (List Bytes)) (matched : List ℕ) (k : List Bytes) : Option ℕ :=
  (List.range rightKeys.length).find? fun i => i ∉ matched ∧ rightKeys[i]? = some k

/-- The loop of INTERSECT ALL. -/
def intersectAll (rightKeys : List (List Bytes)) : List ℕ → List ByteRow → List ByteRow
  | _, [] => []
  | matched, row :: rows =>
    match firstFree rightKeys matched (key row) with
    | some pos => row :: intersectAll rightKeys (matched ++ [pos]) rows
    | none => intersectAll rightKeys matched rows

def countKeys (rightKeys : List (List Bytes)) : List Bytes → ℕ :=
  rightKeys.foldl (fun counts k => Function.update counts k (counts k + 1)) fun _ => 0

/-- The loop of EXCEPT ALL. -/
def exceptAll : (List Bytes → ℕ) → List ByteRow → List ByteRow
  | _, [] => []
  | counts, row :: rows =>
    if 0 < counts (key row) then
      exceptAll (Function.update counts (key row) (counts (key row) - 1)) rows
    else row :: exceptAll counts rows

def intersectRows (all : Bool) (rightKeys : List (List Bytes)) (rows : List ByteRow) :
    List ByteRow :=
  if all then intersectAll key rightKeys [] rows
  else keepDistinct key (fun k => k ∈ rightKeys) [] rows

def exceptRows (all : Bool) (rightKeys : List (List Bytes)) (rows : List ByteRow) : List ByteRow :=
  if all then exceptAll key (countKeys rightKeys) rows
  else keepDistinct key (fun k => k ∉ rightKeys) [] rows

end

section

variable (env : Setting)

/-- The columns of a union; `shape` are those that the select list of the left side names. -/
def unionCols (shape : List Bytes) (left right : TableRows) : List Bytes :=
  if left.cols = [] then
    if shape.length = right.cols.length then shape else right.cols
  else left.cols

def matchedCols (left right : TableRows) : List Bytes :=
  if left.cols = [] then right.cols else left.cols

def execUnion (shape : List Bytes) (left right : Except Bytes TableRows) (all : Bool)
    (orderBy : List OrderRows.OrderBy) (limit offset : Option ℕ) : Except Bytes TableRows := do
  let left ← left
  let right ← right
  if left.cols = [] ∧ right.cols = [] then .ok ⟨[], []⟩
  else
    let cols := unionCols shape left right
    let rows := left.rows ++ right.rows.map (remap cols right.cols)
    let rows := if all then rows else RowList.firstOfEach (rowKey env.table cols) [] rows
    let orderBy ← resolveSetOrder orderBy cols
    .ok ⟨cols, applySetPostprocess env rows orderBy limit offset⟩

/-- What `exec_intersect` and `exec_except` share: they differ in the loop over the left rows. -/
def execMatched
    (loop : (ByteRow → List Bytes) → Bool → List (List Bytes) → List ByteRow → List ByteRow)
    (left right : Except Bytes TableRows) (all : Bool) (orderBy : List OrderRows.OrderBy)
    (limit offset : Option ℕ) : Except Bytes TableRows := do
  let left ← left
  let right ← right
  let cols := matchedCols left right
  let rightKeys := right.rows.map (rightKey env.table cols right.cols)
  let result := loop (rowKey env.table cols) all rightKeys left.rows
  let orderBy ← resolveSetOrder orderBy cols
  .ok ⟨cols, applySetPostprocess env result orderBy limit offset⟩

def execIntersect : Except Bytes TableRows → Except Bytes TableRows → Bool →
    List OrderRows.OrderBy → Option ℕ → Option ℕ → Except Bytes TableRows :=
  execMatched env intersectRows

def execExcept : Except Bytes TableRows → Except Bytes TableRows → Bool →
    List OrderRows.OrderBy → Option ℕ → Option ℕ → Except Bytes TableRows :=
  execMatched env exceptRows

end

end RusqlEngine.SetOperations
