import RusqlEngine.Alter
import RusqlEngine.BTreeMap
import RusqlEngine.IndexBounds

/-!
# Reading a table through an index

The planner looks for the tree of the primary key, a hash index or a secondary tree of the column
compared. Each candidate is checked against the whole condition; a search that cannot be carried out
leaves the rows to a scan. Composite indexes, intersections and the prefix of a LIKE are parameters
or left out.
-/

namespace RusqlEngine.Where

open UnicodeCollation NumericKey
open Buffer (Byte Bytes)

namespace AccessPaths

/-! ### What the planner knows -/

def classOfType : Ddl.DataType → ValueClass
  | .int | .bigInt | .smallInt | .tinyInt | .float | .double | .decimal _ _ | .boolean | .year =>
    .number
  | .unknown => .unknown
  | _ => .text

inductive RangeOp
  | gt | gte | lt | lte
deriving DecidableEq, Repr

def RangeOp.isLowerBound : RangeOp → Bool
  | .gt | .gte => true
  | .lt | .lte => false

/-- What an index is searched by: one key, the keys between two, or those on a side of one. -/
inductive Search
  | point (key : Bytes)
  | between (start stop : Bytes)
  | range (op : RangeOp) (key : Bytes)
deriving DecidableEq

/-- `AccessPath`: `PkPoint`, `PkBetween` and `PkRange`, the same of a secondary tree, a bucket of a
hash index, and the paths whose rows are not named here. -/
inductive AccessPath
  | seqScan
  | pk (search : Search)
  | secondary (index col : Bytes) (search : Search)
  | hashPoint (index col key : Bytes)
  | likePrefix (index col : Bytes) (pat : Bytes)
  | composite
deriving DecidableEq

/-- The planner's view of one table: its key column, its columns if it is in the catalog, its
indexes with their columns, and what composite indexes and intersections answer. -/
structure Planner (ε : Type) where
  pkCol : Option Bytes
  schema : Option (List (Bytes × Ddl.DataType))
  indexMeta : List (Bytes × Bytes)
  hashIndexMeta : List (Bytes × Bytes)
  compositeAnswers : CondExpr ε → Bool

def ieq (a b : Bytes) : Bool :=
  a.map lowerCase = b.map lowerCase

def bareCol (s : Bytes) : Bytes :=
  match lastDot s with
  | some (_, col) => col
  | none => s

def identStart (c : Byte) : Bool :=
  letter c || c = 0x5F

def isIdent : Bytes → Bool
  | [] => false
  | c :: rest =>
    identStart c && (c :: rest).all fun b => identStart b || decide (DigitText.IsDigit b)

/-- The first half of a pattern that ends in its only `%`. -/
def likePrefix (pat : Bytes) : Option Bytes :=
  let front := pat.dropLast
  if pat.getLast? ≠ some 0x25 ∨ 0x25 ∈ front ∨ 0x5F ∈ front ∨ 0x5C ∈ front ∨ front = [] then none
  else some front

namespace Planner

variable {ε : Type} (planner : Planner ε)

def isColRefInContext (k : Bytes) : Bool :=
  if dot ∈ k then
    isIdent (k.takeWhile (· ≠ dot)) && isIdent (k.dropWhile (· ≠ dot)).tail
  else identLike k false && (planner.schema.getD []).any fun column => ieq column.1 k

/-- The class of a column of the table. -/
def colClass (col : Bytes) : ValueClass :=
  match (planner.schema.getD []).find? fun column => ieq column.1 col with
  | none => .unknown
  | some column => classOfType column.2

/-- A value that an index is searched with. -/
def valueAnswers (cls : ValueClass) (text : Bytes) (quoted : Bool) : Bool :=
  !(cls = .number && (NumericText.parseNumber text).isNone) && !(cls = .text && !quoted)

def indexAnswers (col : Bytes) (cond : Condition ε) : Bool :=
  let cls := planner.colClass col
  if cls = .unknown then true
  else if cond.op = .like then cls = .text
  else
    match cond.value with
    | .literal text quoted => valueAnswers cls text quoted
    | .between lo hi loQuoted hiQuoted =>
      valueAnswers cls lo loQuoted && valueAnswers cls hi hiQuoted
    | _ => true

/-- The lambda `lit`: a literal that is not the name of a column. -/
def literalOf (cond : Condition ε) : Option Bytes :=
  match cond.value with
  | .literal text quoted =>
    if quoted || !planner.isColRefInContext text then some text else none
  | _ => none

/-- What `pk_access` and `secondary_access` search by. -/
def searchOf (cond : Condition ε) : Option Search :=
  match cond.op with
  | .eq => (planner.literalOf cond).map .point
  | .between =>
    match cond.value with
    | .between lo hi _ _ => some (.between lo hi)
    | _ => none
  | .gt => (planner.literalOf cond).map (.range .gt)
  | .gte => (planner.literalOf cond).map (.range .gte)
  | .lt => (planner.literalOf cond).map (.range .lt)
  | .lte => (planner.literalOf cond).map (.range .lte)
  | _ => none

def pkAccess (cond : Condition ε) : Option AccessPath :=
  (planner.searchOf cond).map .pk

def secondaryAccess (index col : Bytes) (cond : Condition ε) : Option AccessPath :=
  if cond.op = .like then
    ((planner.literalOf cond).bind likePrefix).map (.likePrefix index col)
  else (planner.searchOf cond).map (.secondary index col)

def findSecondaryIndex (col : Bytes) : Option Bytes :=
  (planner.indexMeta.find? fun entry => entry.2 = col).map (·.1)

def findHashIndex (col : Bytes) : Option Bytes :=
  (planner.hashIndexMeta.find? fun entry => entry.2 = col).map (·.1)

/-- The path of a comparison of a column. -/
def leafAccess (cond : Condition ε) : Option AccessPath :=
  match cond.left with
  | .expr _ => none
  | .column column =>
    let col := bareCol column.name
    if planner.indexAnswers col cond then
      (if planner.pkCol = some col then planner.pkAccess cond else none).or
        ((if cond.op = .eq then
            (planner.literalOf cond).bind fun key =>
              (planner.findHashIndex col).map fun index => .hashPoint index col key
          else none).or
          ((planner.findSecondaryIndex col).bind fun index =>
            planner.secondaryAccess index col cond))
    else none

def chooseAccess (condition : Option (CondExpr ε)) : AccessPath :=
  match condition with
  | none => .seqScan
  | some expr =>
    let path :=
      match expr with
      | .leaf cond => planner.leafAccess cond
      | _ => none
    path.getD (if planner.compositeAnswers expr then .composite else .seqScan)

def isPoint : AccessPath → Bool
  | .pk (.point _) | .hashPoint _ _ _ | .secondary _ _ (.point _) => true
  | _ => false

def pointLeafOfAnd (expr : CondExpr ε) : Option AccessPath :=
  (expr.andLeaves.map fun leaf => planner.chooseAccess (some (.leaf leaf))).find? isPoint

/-- The path of a `SELECT` from one table. -/
def plan (condition : Option (CondExpr ε)) : AccessPath :=
  let access := planner.chooseAccess condition
  match condition with
  | none => access
  | some (.leaf _) => access
  | some expr => if access = .seqScan then (planner.pointLeafOfAnd expr).getD access else access

end Planner

/-! ### The search -/

/-- An index tree: its key kinds, and the entries under their keys. -/
structure KeyTree (ν : Type) where
  kinds : List KeyKind
  root : BPlusTree Bytes ν

namespace KeyTree

variable {ν : Type} (table : Table) (tree : KeyTree ν)

def textKeyed : Bool :=
  tree.kinds.head? = some .text

/-- The entries between two keys, each widened. -/
def findBetween (start stop : Bytes) : Option (List (Bytes × ν)) :=
  match treeBound tree.kinds start true, treeBound tree.kinds stop false with
  | some lo, some hi => some (tree.root.rangeEntries (KeyOrder.cmpKeys table tree.kinds) lo hi)
  | _, _ => none

/-- The entries of a search. Of two bounds both are numbers, or none is. -/
def find : Search → Option (List (Bytes × ν))
  | .point key => tree.findBetween table key key
  | .between start stop =>
    if tree.textKeyed = false ∧
        (NumericText.parseNumber start).isSome ≠ (NumericText.parseNumber stop).isSome then none
    else tree.findBetween table start stop
  | .range op key =>
    (treeBound tree.kinds key op.isLowerBound).map fun bound =>
      if op.isLowerBound then tree.root.scanFrom (KeyOrder.cmpKeys table tree.kinds) bound true
      else tree.root.scanTo (KeyOrder.cmpKeys table tree.kinds) bound true

end KeyTree

/-- What `exec_select` reads of a table: its rows, the tree of its key, its secondary trees and its
hash indexes. -/
structure Store where
  rows : List ByteRow
  pkTree : Option (KeyTree ByteRow)
  indexes : Bytes → Option (KeyTree (List ByteRow))
  hashIndexes : Bytes → Option (Bytes → List ByteRow)

/-- A statement that an index may answer: no other transaction is open, so the entries are the
latest versions and final. -/
structure Reader (ε : Type) where
  ev : Evaluator ε
  visible : ByteRow → Bool
  condition : CondExpr ε

def xmaxKey : Bytes :=
  [0x5F, 0x78, 0x6D, 0x61, 0x78]

namespace Reader

variable {ε : Type} (reader : Reader ε)

def accepts (row : ByteRow) : Bool :=
  reader.ev.evalCondexpr row reader.condition

/-- The lambda `row_ok`. -/
def rowOk (row : ByteRow) : Bool :=
  reader.visible row && reader.accepts row

def scan (store : Store) : List ByteRow :=
  store.rows.filter reader.rowOk

def coveringRow (col : Bytes) (row : ByteRow) : Option ByteRow :=
  (row.lookup col).map fun value => Finmap.singleton col value

/-- `add_bucket_covering` for one row. -/
def covered (col : Bytes) (row : ByteRow) : Option ByteRow :=
  if (row.lookup xmaxKey).getD [0x30] = [0x30] then
    (coveringRow col row).filter reader.accepts
  else none

/-- `add_bucket_any`: the rows of an entry, whole or only their column. -/
def addBucket (covering : Option Bytes) (rows : List ByteRow) : List ByteRow :=
  match covering with
  | some col => rows.filterMap (reader.covered col)
  | none => rows.filter reader.rowOk

def coveringCol (covers : Bool) (col : Bytes) : Search → Option Bytes
  | .between _ _ => none
  | _ => if covers then some col else none

/-- The answer from an index; none where the generic scan answers. `covers` says that the column of
the index is all that is selected. -/
def indexAnswer (store : Store) (covers : Bool) : AccessPath → Option (List ByteRow)
  | .pk search =>
    store.pkTree.bind fun tree =>
      (tree.find reader.ev.table search).map fun entries =>
        (entries.map (·.2)).filter reader.rowOk
  | .secondary index col search =>
    (store.indexes index).bind fun tree =>
      (tree.find reader.ev.table search).map fun entries =>
        (entries.map (·.2)).flatMap (reader.addBucket (coveringCol covers col search))
  | .hashPoint index _ key =>
    (store.hashIndexes index).map fun buckets =>
      (buckets (normalizeNumericKey reader.ev.table key)).filter reader.rowOk
  | _ => none

end Reader

end AccessPaths

end RusqlEngine.Where
