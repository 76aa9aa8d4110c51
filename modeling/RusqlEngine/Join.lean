import RusqlEngine.Library.Joins
import RusqlEngine.Library.KeyMap
import RusqlEngine.Library.SortMerge
import RusqlEngine.NumericKey
import RusqlEngine.RowJson

/-!
# The join algorithms

The nested loop evaluates a condition on every merged row, the hash join looks rows up by the bucket
of their key, the sort-merge join goes through both sorted sides together. A merged row holds the
right row's cells under qualified names, and under their own names where these are free.
-/

namespace RusqlEngine.Join

open NumericText UnicodeCollation
open Buffer (Byte Bytes)

def joinNullValue : Bytes := [0x4E, 0x55, 0x4C, 0x4C]

def dot : Byte := 0x2E

def underscore : Byte := 0x5F

inductive JoinType
  | inner | left | right | cross | natural | fullOuter
deriving DecidableEq, Repr

/-- The order in which an `std::unordered_map` goes through its keys. -/
structure RowOrder where
  keys : ByteRow → List Bytes
  mem_keys : ∀ row k, k ∈ keys row ↔ k ∈ row

def qualified (table col : Bytes) : Bytes :=
  table ++ dot :: col

variable (weights : Table) (ord : RowOrder)

def sortCmp (a b : Bytes) : Ordering :=
  if (parseNumber a).isSome ∧ (parseNumber b).isSome then
    compareNumbers a b
  else compare weights a b

theorem sortCmp_numbers {a b : Bytes} (h : (parseNumber a).isSome ∧ (parseNumber b).isSome) :
    sortCmp weights a b = compareNumbers a b := by
  rw [sortCmp, if_pos h]

theorem sortCmp_texts {a b : Bytes} (h : ¬ ((parseNumber a).isSome ∧ (parseNumber b).isSome)) :
    sortCmp weights a b = compare weights a b := by
  rw [sortCmp, if_neg h]

instance : Std.OrientedCmp (sortCmp weights) where
  eq_swap {a b} := by
    by_cases h : (parseNumber a).isSome ∧ (parseNumber b).isSome
    · rw [sortCmp_numbers weights h, sortCmp_numbers weights h.symm]
      exact compareNumbers_eq_swap a b
    · rw [sortCmp_texts weights h, sortCmp_texts weights (mt And.symm h)]
      exact Std.OrientedCmp.eq_swap

def nonQualifiedKeys : Option ByteRow → List Bytes
  | none => []
  | some r => (ord.keys r).filter fun k => k ≠ [] ∧ k.head? ≠ some underscore ∧ dot ∉ k

def chunkStart (n nChunks : ℕ) : ℕ → ℕ
  | 0 => 0
  | c + 1 => chunkStart n nChunks c + n / nChunks + if c < n % nChunks then 1 else 0

/-- `probe_parallel`: what the chunks give, put together in their order. -/
def probeParallel (cpus : ℕ) (left : List ByteRow) (perRow : ByteRow → List ByteRow) :
    List ByteRow :=
  let nChunks := min (if cpus = 0 then 4 else cpus) left.length
  if nChunks < 2 then left.flatMap perRow
  else
    (List.range nChunks).flatMap fun c =>
      ((left.take (chunkStart left.length nChunks (c + 1))).drop
        (chunkStart left.length nChunks c)).flatMap perRow

def mergeRight (merged right : ByteRow) (table : Bytes) : ByteRow :=
  (ord.keys right).foldl (fun merged k =>
    let v := (right.lookup k).getD []
    KeyMap.emplace (merged.insert (qualified table k) v) k v) merged

def nullRight (merged : ByteRow) (cols : List Bytes) (table : Bytes) : ByteRow :=
  cols.foldl (fun merged col =>
    KeyMap.emplace (merged.insert (qualified table col) joinNullValue) col joinNullValue) merged

def padLeft (cols : List Bytes) : ByteRow :=
  cols.foldl (fun merged col => merged.insert col joinNullValue) ∅

/-- `key_left`, which also takes a column of the name behind a dot. -/
def keyLeft (probeCol : Bytes) (row : ByteRow) : Bytes :=
  match row.lookup probeCol with
  | some v => v
  | none =>
    match (ord.keys row).find? fun k => (dot :: probeCol).isSuffixOf k with
    | some k => (row.lookup k).getD []
    | none => []

def keyRight (table buildCol : Bytes) (row : ByteRow) : Bytes :=
  match row.lookup buildCol with
  | some v => v
  | none => (row.lookup (qualified table buildCol)).getD []

def orPadded (joined : List ByteRow) (padded : ByteRow) : List ByteRow :=
  if joined.isEmpty then [padded] else joined

def sortMergeJoin (left right : List ByteRow) (joinType : JoinType)
    (table probeCol buildCol : Bytes) (rightSchemaCols : List Bytes)
    (leftPad : Option (List Bytes)) : List ByteRow :=
  let kl := keyLeft ord probeCol
  let kr := keyRight table buildCol
  let isNull := fun k : Bytes => decide (k = joinNullValue)
  let ls := RowList.stableSort (fun a b => sortCmp weights (kl a) (kl b)) left
  let rs := RowList.stableSort (fun a b => sortCmp weights (kr a) (kr b)) right
  match joinType with
  | .inner =>
    (SortMerge.blocks (sortCmp weights) kl kr isNull ls rs).map fun pair =>
      mergeRight ord pair.1 pair.2 table
  | .left =>
    (SortMerge.runs (sortCmp weights) kl kr isNull ls rs).flatMap fun run =>
      orPadded (run.2.map fun r => mergeRight ord run.1 r table)
        (nullRight run.1 rightSchemaCols table)
  | .right =>
    let leftCols := leftPad.getD (nonQualifiedKeys ord ls.head?)
    (SortMerge.runs (sortCmp weights) kr kl isNull rs ls).flatMap fun run =>
      orPadded (run.2.map fun l => mergeRight ord l run.1 table)
        (mergeRight ord (padLeft leftCols) run.1 table)
  | _ => []

def bucketKey (key : Bytes) : Option Bytes :=
  if key ≠ joinNullValue then some (NumericKey.normalizeNumericKey weights key) else none

def hashJoin (cpus : ℕ) (left right : List ByteRow) (joinType : JoinType)
    (table probeCol buildCol : Bytes) (rightSchemaCols : List Bytes)
    (leftPad : Option (List Bytes)) : List ByteRow :=
  let hash := Joins.bucketsOf (fun r => bucketKey weights (keyRight table buildCol r)) right
  let found := fun l => (bucketKey weights (keyLeft ord probeCol l)).bind hash.lookup
  match joinType with
  | .inner =>
    probeParallel cpus left fun l => ((found l).getD []).map fun r => mergeRight ord l r table
  | .left =>
    probeParallel cpus left fun l =>
      match found l with
      | some rows => rows.map fun r => mergeRight ord l r table
      | none => [nullRight l rightSchemaCols table]
  | .right =>
    let leftHash :=
      Joins.bucketsOf (fun l : ByteRow => bucketKey weights ((l.lookup probeCol).getD [])) left
    let leftCols := leftPad.getD (nonQualifiedKeys ord left.head?)
    right.flatMap fun r =>
      match (bucketKey weights ((r.lookup buildCol).getD [])).bind leftHash.lookup with
      | some rows => rows.map fun l => mergeRight ord l r table
      | none => [mergeRight ord (padLeft leftCols) r table]
  | _ => []

def nestedLoopJoin (left right : List ByteRow) (joinType : JoinType) (table : Bytes)
    (usingCols rightSchemaCols : List Bytes) (onMatch : ByteRow → Bool)
    (leftPad : Option (List Bytes)) (keep : Option (ByteRow → Bool)) : List ByteRow :=
  let merge := fun l r => mergeRight ord l r table
  let kept := fun merged => keep.elim true fun keep => keep merged
  let matchedBy := fun l => (right.map (merge l)).filter onMatch
  let leftCols := leftPad.getD (nonQualifiedKeys ord left.head?)
  if usingCols ≠ [] then
    left.flatMap fun l =>
      ((right.filter fun r => usingCols.all fun col =>
        let lv := (l.lookup col).getD joinNullValue
        let rv := (r.lookup col).getD joinNullValue
        lv = rv ∧ lv ≠ joinNullValue).map (merge l)).filter fun merged =>
          joinType ≠ .inner ∨ kept merged
  else
    match joinType with
    | .inner =>
      left.flatMap fun l => (right.map (merge l)).filter fun merged =>
        onMatch merged && kept merged
    | .left =>
      left.flatMap fun l => orPadded (matchedBy l) (nullRight l rightSchemaCols table)
    | .right =>
      right.flatMap fun r =>
        orPadded ((left.map fun l => merge l r).filter onMatch) (merge (padLeft leftCols) r)
    | .cross => left.flatMap fun l => (right.map (merge l)).filter kept
    | .natural =>
      let commonCols := rightSchemaCols.filter fun rc => left.head?.elim false fun l => rc ∈ l
      left.flatMap fun l =>
        (right.filter fun r => commonCols.all fun col =>
          (l.lookup col).getD [] = (r.lookup col).getD []).map (merge l)
    | .fullOuter =>
      (left.flatMap fun l => orPadded (matchedBy l) (nullRight l rightSchemaCols table)) ++
        (right.filter fun r => !left.any fun l => onMatch (merge l r)).map
          (merge (padLeft leftCols))

end RusqlEngine.Join
