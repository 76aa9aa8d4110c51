import RusqlEngine.Join

/-!
# Joins on a relation of the keys

Two lists of rows are joined on one column each. Every algorithm merges the pairs of rows that some
relation of their keys picks: for the nested loop the keys are equal, for the hash join they are in
one bucket. The sort-merge join is the nested loop over the sorted rows, as long as the comparison
of the keys runs in no circle.
-/

namespace RusqlEngine.Join

open SortMerge RowList NumericText Joins Finmap
open Buffer (Bytes)

variable {weights : UnicodeCollation.Table} {ord : RowOrder}

/-! ### Merged rows -/

section

variable {table x : Bytes} {f : Bytes → Bytes} {merged right : ByteRow}

theorem qualified_inj {k k' : Bytes} : qualified table k = qualified table k' ↔ k = k' := by
  rw [qualified, qualified, List.append_cancel_left_eq, List.cons.injEq, and_iff_right rfl]

theorem ne_qualified (h : dot ∉ x) (k : Bytes) : x ≠ qualified table k := by
  rintro rfl
  exact h (List.mem_append_right _ List.mem_cons_self)

/-- The cells of a table in a merged row, under qualified names and under their own. -/
def addCells (f : Bytes → Bytes) (table : Bytes) (ks : List Bytes) (merged : ByteRow) : ByteRow :=
  ks.foldl (fun merged k =>
    KeyMap.emplace (merged.insert (qualified table k) (f k)) k (f k)) merged

theorem addCells_concat (ks : List Bytes) (k : Bytes) :
    addCells f table (ks ++ [k]) merged =
      KeyMap.emplace ((addCells f table ks merged).insert (qualified table k) (f k)) k (f k) :=
  List.foldl_concat _ merged k ks

theorem lookup_addCells_qualified {ks : List Bytes} {k : Bytes} (h : k ∈ ks) :
    (addCells f table ks merged).lookup (qualified table k) = some (f k) := by
  induction ks using List.reverseRecOn with
  | nil => exact nomatch h
  | append_singleton ks k' ih =>
    rw [addCells_concat, KeyMap.lookup_emplace]
    by_cases hk : k = k'
    · rw [hk, lookup_insert, Option.some_or]
    · have hmem : k ∈ ks := (List.mem_append.mp h).resolve_right (by simpa using hk)
      rw [lookup_insert_of_ne _ (mt qualified_inj.mp hk), ih hmem, Option.some_or]

theorem lookup_addCells {ks : List Bytes} (h : ∀ k ∈ ks, x ≠ qualified table k) :
    (addCells f table ks merged).lookup x =
      (merged.lookup x).or (if x ∈ ks then some (f x) else none) := by
  induction ks using List.reverseRecOn with
  | nil => rw [if_neg List.not_mem_nil, Option.or_none]; rfl
  | append_singleton ks k ih =>
    have hk := h k (List.mem_append_right _ List.mem_cons_self)
    rw [addCells_concat, KeyMap.lookup_emplace, lookup_insert_of_ne _ hk,
      ih fun k' hk' => h k' (List.mem_append_left _ hk'), Option.or_assoc]
    congr 1
    by_cases hx : x ∈ ks
    · rw [if_pos hx, if_pos (List.mem_append_left _ hx), Option.some_or]
    · rw [if_neg hx, Option.none_or]
      by_cases hxk : x = k
      · rw [if_pos hxk, if_pos (by simp [hxk]), hxk]
      · rw [if_neg hxk, if_neg (by simp [hx, hxk])]

theorem mergeRight_eq : mergeRight ord merged right table =
    addCells (fun k => (right.lookup k).getD []) table (ord.keys right) merged :=
  rfl

theorem lookup_mergeRight_qualified {k : Bytes} (h : k ∈ right) :
    (mergeRight ord merged right table).lookup (qualified table k) = right.lookup k := by
  obtain ⟨v, hv⟩ := mem_iff.mp h
  rw [mergeRight_eq, lookup_addCells_qualified ((ord.mem_keys right k).mpr h), hv, Option.getD_some]

theorem lookup_mergeRight (h : ∀ k ∈ right, x ≠ qualified table k) :
    (mergeRight ord merged right table).lookup x = (merged.lookup x).or (right.lookup x) := by
  rw [mergeRight_eq, lookup_addCells fun k hk => h k ((ord.mem_keys right k).mp hk)]
  congr 1
  by_cases hx : x ∈ right
  · obtain ⟨v, hv⟩ := mem_iff.mp hx
    rw [if_pos ((ord.mem_keys right x).mpr hx), hv, Option.getD_some]
  · rw [if_neg (mt (ord.mem_keys right x).mp hx), lookup_eq_none.mpr hx]

theorem lookup_padLeft {cols : List Bytes} :
    (padLeft cols).lookup x = if x ∈ cols then some joinNullValue else none := by
  induction cols using List.reverseRecOn with
  | nil => rfl
  | append_singleton cols col ih =>
    rw [padLeft, List.foldl_concat, ← padLeft]
    by_cases hx : x = col
    · rw [hx, lookup_insert, if_pos (by simp)]
    · rw [lookup_insert_of_ne _ hx, ih]
      simp only [List.mem_append, List.mem_singleton, hx, or_false]

theorem mem_nonQualifiedKeys {row : Option ByteRow} (h : x ∈ nonQualifiedKeys ord row) :
    dot ∉ x := by
  cases row with
  | none => exact nomatch h
  | some r => exact (of_decide_eq_true (List.mem_filter.mp h).2).2.2

end

/-! ### What is joined -/

section

variable (weights)

/-- Equal as numbers where both are numbers, and else in the collation. -/
def keysEqual (a b : Bytes) : Bool :=
  if (parseNumber a).isSome ∧ (parseNumber b).isSome then
    compareNumbers a b = .eq
  else UnicodeCollation.equal weights a b

def keysJoin (a b : Bytes) : Bool :=
  a ≠ joinNullValue ∧ b ≠ joinNullValue ∧ keysEqual weights a b

/-- Neither key is NULL and the two are in one bucket. -/
def keysShare (a b : Bytes) : Bool :=
  a ≠ joinNullValue ∧ b ≠ joinNullValue ∧
    NumericKey.normalizeNumericKey weights a = NumericKey.normalizeNumericKey weights b

/-- The ON condition on a merged row. -/
def onKeys (table probeCol buildCol : Bytes) (merged : ByteRow) : Bool :=
  match merged.lookup probeCol, merged.lookup (qualified table buildCol) with
  | some a, some b => keysJoin weights a b
  | _, _ => false

variable {weights} {a b : Bytes}

theorem keysEqual_iff : keysEqual weights a b ↔ sortCmp weights a b = .eq := by
  rw [keysEqual]
  split
  next h => rw [sortCmp_numbers weights h, decide_eq_true_eq]
  next h =>
    rw [sortCmp_texts weights h, UnicodeCollation.equal, decide_eq_true_eq]
    refine or_iff_right_of_imp ?_
    rintro rfl
    exact Std.ReflCmp.compare_self

theorem keysJoin_iff : keysJoin weights a b ↔
    a ≠ joinNullValue ∧ b ≠ joinNullValue ∧ sortCmp weights a b = .eq := by
  rw [keysJoin, decide_eq_true_eq, keysEqual_iff]

theorem sortCmp_null_left :
    sortCmp weights joinNullValue b = if b = joinNullValue then .eq else .lt := by
  have hnumber : parseNumber joinNullValue = none := by decide
  have hnull : UnicodeCollation.isNullText joinNullValue := by decide
  have hb : UnicodeCollation.isNullText b = decide (b = joinNullValue) := rfl
  rw [sortCmp_texts weights (by rw [hnumber]; exact fun h => Bool.false_ne_true h.1),
    UnicodeCollation.compare, hnull, if_pos (.inl rfl), if_pos rfl, hb]
  simp only [decide_eq_true_eq]

theorem null_congr (h : sortCmp weights a b = .eq) : a = joinNullValue ↔ b = joinNullValue := by
  constructor
  · rintro rfl
    by_contra hb
    rw [sortCmp_null_left, if_neg hb] at h
    exact absurd h (by decide)
  · rintro rfl
    by_contra ha
    have hswap := Std.OrientedCmp.eq_symm h
    rw [sortCmp_null_left, if_neg ha] at hswap
    exact absurd hswap (by decide)

end

def cell (col : Bytes) (row : ByteRow) : Bytes :=
  (row.lookup col).getD []

section

variable (ord) (E : ByteRow → ByteRow → Bool) (table : Bytes)
  (rightSchemaCols leftCols : List Bytes)

/-- The join on a relation of the rows. -/
def joinOn (left right : List ByteRow) : JoinType → List ByteRow
  | .inner =>
    left.flatMap fun l => (right.filter (E l)).map fun r => mergeRight ord l r table
  | .left =>
    left.flatMap fun l =>
      orPadded ((right.filter (E l)).map fun r => mergeRight ord l r table)
        (nullRight l rightSchemaCols table)
  | .right =>
    right.flatMap fun r =>
      orPadded ((left.filter fun l => E l r).map fun l => mergeRight ord l r table)
        (mergeRight ord (padLeft leftCols) r table)
  | _ => []

variable {ord} {E} {table} {rightSchemaCols} {leftCols} {left left' right right' : List ByteRow}
  {joinType : JoinType}

theorem orPadded_perm {joined joined' : List ByteRow} {padded : ByteRow}
    (h : joined.Perm joined') : (orPadded joined padded).Perm (orPadded joined' padded) := by
  cases joined with
  | nil =>
    rw [List.nil_perm.mp h]
  | cons row joined =>
    cases joined' with
    | nil => exact absurd h.length_eq (Nat.succ_ne_zero _)
    | cons row' joined' => exact h

theorem joinOn_congr {E' : ByteRow → ByteRow → Bool} (h : ∀ l ∈ left, ∀ r ∈ right, E l r = E' l r) :
    joinOn ord E table rightSchemaCols leftCols left right joinType =
      joinOn ord E' table rightSchemaCols leftCols left right joinType := by
  have hleft {l : ByteRow} (hl : l ∈ left) : right.filter (E l) = right.filter (E' l) :=
    List.filter_congr fun r hr => h l hl r hr
  have hright {r : ByteRow} (hr : r ∈ right) :
      (left.filter fun l => E l r) = left.filter fun l => E' l r :=
    List.filter_congr fun l hl => h l hl r hr
  cases joinType with
  | inner => exact List.flatMap_congr fun l hl => by rw [hleft hl]
  | left => exact List.flatMap_congr fun l hl => by rw [hleft hl]
  | right => exact List.flatMap_congr fun r hr => by rw [hright hr]
  | cross => rfl
  | natural => rfl
  | fullOuter => rfl

theorem joinOn_perm (hleft : left.Perm left') (hright : right.Perm right') :
    (joinOn ord E table rightSchemaCols leftCols left right joinType).Perm
      (joinOn ord E table rightSchemaCols leftCols left' right' joinType) := by
  cases joinType with
  | inner =>
    refine (List.Perm.flatMap_right _ hleft).trans (List.Perm.flatMap_left _ fun l _ => ?_)
    exact (hright.filter _).map _
  | left =>
    refine (List.Perm.flatMap_right _ hleft).trans (List.Perm.flatMap_left _ fun l _ => ?_)
    exact orPadded_perm ((hright.filter _).map _)
  | right =>
    refine (List.Perm.flatMap_right _ hright).trans (List.Perm.flatMap_left _ fun r _ => ?_)
    exact orPadded_perm ((hleft.filter _).map _)
  | cross | natural | fullOuter => exact List.Perm.refl _

end

/-! ### The chunks of a probe -/

section

variable {cpus n nChunks c : ℕ} {left : List ByteRow} {perRow : ByteRow → List ByteRow}

theorem chunkStart_eq : ∀ c, chunkStart n nChunks c = n / nChunks * c + min c (n % nChunks)
  | 0 => by rw [chunkStart, Nat.mul_zero, Nat.zero_min]
  | c + 1 => by
      rw [chunkStart, chunkStart_eq c, Nat.mul_succ]
      split
      next h => rw [Nat.min_eq_left (Nat.le_of_lt h), Nat.min_eq_left h]; omega
      next h =>
        have hle := Nat.le_of_not_lt h
        rw [Nat.min_eq_right hle, Nat.min_eq_right (Nat.le_succ_of_le hle)]
        omega

theorem chunkStart_le_succ (c : ℕ) : chunkStart n nChunks c ≤ chunkStart n nChunks (c + 1) := by
  rw [chunkStart, Nat.add_assoc]
  exact Nat.le_add_right _ _

theorem chunkStart_end (h : 0 < nChunks) : chunkStart n nChunks nChunks = n := by
  rw [chunkStart_eq, Nat.min_eq_right (Nat.le_of_lt (Nat.mod_lt n h)), Nat.mul_comm]
  exact Nat.div_add_mod n nChunks

theorem flatMap_chunks (c : ℕ) :
    ((List.range c).flatMap fun i =>
      ((left.take (chunkStart n nChunks (i + 1))).drop (chunkStart n nChunks i)).flatMap perRow) =
      (left.take (chunkStart n nChunks c)).flatMap perRow := by
  induction c with
  | zero => rfl
  | succ c ih =>
    have hsplit := List.take_append_drop (chunkStart n nChunks c)
      (left.take (chunkStart n nChunks (c + 1)))
    rw [List.take_take, Nat.min_eq_left (chunkStart_le_succ c)] at hsplit
    rw [List.range_succ, List.flatMap_append, ih, List.flatMap_singleton, ← List.flatMap_append,
      hsplit]

theorem probeParallel_eq : probeParallel cpus left perRow = left.flatMap perRow := by
  dsimp only [probeParallel]
  generalize min (if cpus = 0 then 4 else cpus) left.length = nChunks
  split
  next => rfl
  next h =>
    rw [flatMap_chunks, chunkStart_end (by omega), List.take_length]

end

/-! ### The algorithms as joins on a relation -/

/-- What a join is asked for. -/
structure Call where
  left : List ByteRow
  right : List ByteRow
  table : Bytes
  probeCol : Bytes
  buildCol : Bytes
  rightSchemaCols : List Bytes
  leftPad : Option (List Bytes)

namespace Call

variable (weights) (ord) (cpus : ℕ) (call : Call)

/-- The nested loop on equal keys. -/
def nestedLoop (joinType : JoinType) : List ByteRow :=
  nestedLoopJoin ord call.left call.right joinType call.table [] call.rightSchemaCols
    (onKeys weights call.table call.probeCol call.buildCol) call.leftPad none

def hash (joinType : JoinType) : List ByteRow :=
  hashJoin weights ord cpus call.left call.right joinType call.table call.probeCol call.buildCol
    call.rightSchemaCols call.leftPad

def sortMerge (joinType : JoinType) : List ByteRow :=
  sortMergeJoin weights ord call.left call.right joinType call.table call.probeCol call.buildCol
    call.rightSchemaCols call.leftPad

/-- The right rows have the build column and the left rows the probe column, which is not
qualified. -/
structure Joinable : Prop where
  build : ∀ r ∈ call.right, call.buildCol ∈ r
  probe : ∀ l ∈ call.left, call.probeCol ∈ l
  unqualified : dot ∉ call.probeCol

def related (R : Bytes → Bytes → Bool) (l r : ByteRow) : Bool :=
  R (cell call.probeCol l) (cell call.buildCol r)

def padCols (row : Option ByteRow) : List Bytes :=
  call.leftPad.getD (nonQualifiedKeys ord row)

def joined (R : Bytes → Bytes → Bool) (row : Option ByteRow) (joinType : JoinType) :
    List ByteRow :=
  joinOn ord (call.related R) call.table call.rightSchemaCols (call.padCols ord row) call.left
    call.right joinType

def keys : Set Bytes :=
  {k | (∃ l ∈ call.left, cell call.probeCol l = k) ∨ ∃ r ∈ call.right, cell call.buildCol r = k}

end Call

def Equi (joinType : JoinType) : Prop :=
  joinType = .inner ∨ joinType = .left ∨ joinType = .right

section

variable {call : Call} {joinType : JoinType} {l r : ByteRow} {col : Bytes}

theorem lookup_cell (h : col ∈ l) : l.lookup col = some (cell col l) := by
  obtain ⟨v, hv⟩ := mem_iff.mp h
  rw [cell, hv, Option.getD_some]

theorem keyLeft_eq (h : col ∈ l) : keyLeft ord col l = cell col l := by
  rw [keyLeft, lookup_cell h]

theorem keyRight_eq {table : Bytes} (h : col ∈ r) : keyRight table col r = cell col r := by
  rw [keyRight, lookup_cell h]

theorem keysShare_comm (a b : Bytes) : keysShare weights a b = keysShare weights b a := by
  rw [keysShare, keysShare, decide_eq_decide]
  constructor
  · rintro ⟨ha, hb, hab⟩
    exact ⟨hb, ha, hab.symm⟩
  · rintro ⟨hb, ha, hba⟩
    exact ⟨ha, hb, hba.symm⟩

theorem keysJoin_comm (a b : Bytes) : keysJoin weights a b = keysJoin weights b a := by
  rw [Bool.eq_iff_iff, keysJoin_iff, keysJoin_iff]
  constructor
  · rintro ⟨ha, hb, hab⟩
    exact ⟨hb, ha, Std.OrientedCmp.eq_symm hab⟩
  · rintro ⟨hb, ha, hba⟩
    exact ⟨ha, hb, Std.OrientedCmp.eq_symm hba⟩

theorem found_eq (key : ByteRow → Bytes) (rows : List ByteRow) (k : Bytes) :
    (bucketKey weights k).bind (bucketsOf (fun x => bucketKey weights (key x)) rows).lookup =
      if rows.filter (fun x => keysShare weights k (key x)) = [] then none
      else some (rows.filter fun x => keysShare weights k (key x)) := by
  by_cases hk : k = joinNullValue
  · have hnone : rows.filter (fun x => keysShare weights k (key x)) = [] := by
      refine List.filter_eq_nil_iff.mpr fun x _ hshare => ?_
      rw [keysShare, decide_eq_true_eq] at hshare
      exact hshare.1 hk
    rw [bucketKey, if_neg (not_not.mpr hk), Option.bind_none, if_pos hnone]
  · have hfilter : (rows.filter fun x => bucketKey weights (key x) =
        some (NumericKey.normalizeNumericKey weights k)) =
        rows.filter fun x => keysShare weights k (key x) := by
      refine List.filter_congr fun x _ => ?_
      rw [bucketKey, keysShare, decide_eq_decide]
      split
      next hx =>
        rw [Option.some.injEq, and_iff_right hk, and_iff_right hx, eq_comm]
      next hx =>
        constructor
        · intro hsome
          cases hsome
        · intro hshare
          exact absurd hshare.2.1 hx
    rw [bucketKey, if_pos hk, Option.bind_some, lookup_bucketsOf, hfilter]

theorem run_eq (key : ByteRow → Bytes) (rows : List ByteRow) (k : Bytes) :
    (if decide (k = joinNullValue) then []
      else rows.filter fun x => sortCmp weights (key x) k = .eq) =
      rows.filter fun x => keysJoin weights k (key x) := by
  split
  next hk =>
    refine (List.filter_eq_nil_iff.mpr fun x _ hjoin => ?_).symm
    exact (keysJoin_iff.mp hjoin).1 (of_decide_eq_true hk)
  next hk =>
    refine List.filter_congr fun x _ => ?_
    rw [Bool.eq_iff_iff, decide_eq_true_eq, keysJoin_iff]
    rw [decide_eq_true_eq] at hk
    constructor
    · intro heq
      exact ⟨hk, mt (null_congr heq).mp hk, Std.OrientedCmp.eq_symm heq⟩
    · intro hjoin
      exact Std.OrientedCmp.eq_symm hjoin.2.2

namespace Call

/-- The left rows as the sort-merge join sorts them. -/
def sortedLeft (weights : UnicodeCollation.Table) (ord : RowOrder) (call : Call) : List ByteRow :=
  stableSort (fun a b =>
    sortCmp weights (keyLeft ord call.probeCol a) (keyLeft ord call.probeCol b)) call.left

def sortedRight (weights : UnicodeCollation.Table) (call : Call) : List ByteRow :=
  stableSort (fun a b =>
    sortCmp weights (keyRight call.table call.buildCol a) (keyRight call.table call.buildCol b))
    call.right

theorem mem_sortedLeft : l ∈ call.sortedLeft weights ord ↔ l ∈ call.left :=
  (stableSort_perm _ _).mem_iff

theorem mem_sortedRight : r ∈ call.sortedRight weights ↔ r ∈ call.right :=
  (stableSort_perm _ _).mem_iff

variable (h : call.Joinable)
include h

theorem Joinable.lookup_probe (hl : l ∈ call.left) :
    (mergeRight ord l r call.table).lookup call.probeCol = some (cell call.probeCol l) := by
  rw [lookup_mergeRight fun k _ => ne_qualified h.unqualified k, lookup_cell (h.probe l hl),
    Option.some_or]

theorem Joinable.lookup_build (hr : r ∈ call.right) :
    (mergeRight ord l r call.table).lookup (qualified call.table call.buildCol) =
      some (cell call.buildCol r) := by
  rw [lookup_mergeRight_qualified (h.build r hr), lookup_cell (h.build r hr)]

theorem Joinable.onKeys_merged (hl : l ∈ call.left) (hr : r ∈ call.right) :
    onKeys weights call.table call.probeCol call.buildCol (mergeRight ord l r call.table) =
      call.related (keysJoin weights) l r := by
  rw [onKeys, h.lookup_probe hl, h.lookup_build hr, related]

theorem nestedLoop_eq (hequi : Equi joinType) :
    call.nestedLoop weights ord joinType =
      call.joined ord (keysJoin weights) call.left.head? joinType := by
  have hright {l : ByteRow} (hl : l ∈ call.left) :
      (call.right.map fun r => mergeRight ord l r call.table).filter
          (onKeys weights call.table call.probeCol call.buildCol) =
        (call.right.filter (call.related (keysJoin weights) l)).map fun r =>
          mergeRight ord l r call.table := by
    rw [List.filter_map]
    congr 1
    exact List.filter_congr fun r hr => h.onKeys_merged hl hr
  have hleft {r : ByteRow} (hr : r ∈ call.right) :
      (call.left.map fun l => mergeRight ord l r call.table).filter
          (onKeys weights call.table call.probeCol call.buildCol) =
        (call.left.filter fun l => call.related (keysJoin weights) l r).map fun l =>
          mergeRight ord l r call.table := by
    rw [List.filter_map]
    congr 1
    exact List.filter_congr fun l hl => h.onKeys_merged hl hr
  rcases hequi with rfl | rfl | rfl
  · refine List.flatMap_congr fun l hl => ?_
    rw [← hright hl]
    exact List.filter_congr fun merged _ => Bool.and_true _
  · exact List.flatMap_congr fun l hl => congrArg (fun rows => orPadded rows _) (hright hl)
  · exact List.flatMap_congr fun r hr => congrArg (fun rows => orPadded rows _) (hleft hr)

theorem hash_eq (hequi : Equi joinType) {cpus : ℕ} :
    call.hash weights ord cpus joinType =
      call.joined ord (keysShare weights) call.left.head? joinType := by
  have hbuild : bucketsOf
        (fun r => bucketKey weights (keyRight call.table call.buildCol r)) call.right =
      bucketsOf (fun r => bucketKey weights (cell call.buildCol r)) call.right :=
    bucketsOf_congr _ fun r hr => by rw [keyRight_eq (h.build r hr)]
  have hfound {l : ByteRow} (hl : l ∈ call.left) :
      (bucketKey weights (keyLeft ord call.probeCol l)).bind (bucketsOf
        (fun r => bucketKey weights (keyRight call.table call.buildCol r)) call.right).lookup =
      if call.right.filter (call.related (keysShare weights) l) = [] then none
      else some (call.right.filter (call.related (keysShare weights) l)) := by
    rw [keyLeft_eq (h.probe l hl), hbuild]
    exact found_eq (cell call.buildCol) call.right (cell call.probeCol l)
  have hfound' (r : ByteRow) :
      (bucketKey weights ((r.lookup call.buildCol).getD [])).bind (bucketsOf
        (fun l : ByteRow => bucketKey weights ((l.lookup call.probeCol).getD []))
          call.left).lookup =
      if (call.left.filter fun l => call.related (keysShare weights) l r) = [] then none
      else some (call.left.filter fun l => call.related (keysShare weights) l r) := by
    have hcomm : (call.left.filter fun l => call.related (keysShare weights) l r) =
        call.left.filter fun l =>
          keysShare weights (cell call.buildCol r) (cell call.probeCol l) :=
      List.filter_congr fun l _ => keysShare_comm _ _
    rw [hcomm]
    exact found_eq (cell call.probeCol) call.left (cell call.buildCol r)
  rcases hequi with rfl | rfl | rfl
  · refine probeParallel_eq.trans (List.flatMap_congr fun l hl => ?_)
    dsimp only
    rw [hfound hl]
    split
    next hnil => rw [hnil]; rfl
    next => rfl
  · refine probeParallel_eq.trans (List.flatMap_congr fun l hl => ?_)
    dsimp only
    rw [hfound hl]
    by_cases hnil : call.right.filter (call.related (keysShare weights) l) = []
    · rw [if_pos hnil, hnil]
      rfl
    · rw [if_neg hnil, orPadded, if_neg (by simpa using hnil)]
  · refine List.flatMap_congr fun r hr => ?_
    rw [hfound' r]
    by_cases hnil : (call.left.filter fun l => call.related (keysShare weights) l r) = []
    · rw [if_pos hnil, hnil]
      rfl
    · rw [if_neg hnil, orPadded, if_neg (by simpa using hnil)]

/-! ### The sort -/

theorem Joinable.consistent_left (htrans : TransOn (sortCmp weights) call.keys) :
    Consistent (fun a b =>
      sortCmp weights (keyLeft ord call.probeCol a) (keyLeft ord call.probeCol b)) call.left where
  swap a _ b _ := Std.OrientedCmp.eq_swap
  trans a ha b hb c hc := by
    rw [keyLeft_eq (h.probe a ha), keyLeft_eq (h.probe b hb), keyLeft_eq (h.probe c hc)]
    exact htrans _ (.inl ⟨a, ha, rfl⟩) _ (.inl ⟨b, hb, rfl⟩) _ (.inl ⟨c, hc, rfl⟩)

theorem Joinable.consistent_right (htrans : TransOn (sortCmp weights) call.keys) :
    Consistent (fun a b =>
      sortCmp weights (keyRight call.table call.buildCol a) (keyRight call.table call.buildCol b))
      call.right where
  swap a _ b _ := Std.OrientedCmp.eq_swap
  trans a ha b hb c hc := by
    rw [keyRight_eq (h.build a ha), keyRight_eq (h.build b hb), keyRight_eq (h.build c hc)]
    exact htrans _ (.inr ⟨a, ha, rfl⟩) _ (.inr ⟨b, hb, rfl⟩) _ (.inr ⟨c, hc, rfl⟩)

section

variable (htrans : TransOn (sortCmp weights) call.keys)

theorem Joinable.joins_eq (hl : l ∈ call.left) (hr : r ∈ call.right) :
    joins (sortCmp weights) (keyLeft ord call.probeCol)
      (keyRight call.table call.buildCol) (fun k => decide (k = joinNullValue)) l r =
      call.related (keysJoin weights) l r := by
  rw [Bool.eq_iff_iff, joins_iff, related, keysJoin_iff, keyLeft_eq (h.probe l hl),
    keyRight_eq (h.build r hr), decide_eq_false_iff_not, decide_eq_false_iff_not]

include htrans

theorem Joinable.sortMerge_eq (hequi : Equi joinType) :
    call.sortMerge weights ord joinType =
      joinOn ord (call.related (keysJoin weights)) call.table call.rightSchemaCols
        (call.padCols ord (call.sortedLeft weights ord).head?) (call.sortedLeft weights ord)
        (call.sortedRight weights) joinType := by
  have hls : Ascends (sortCmp weights) (keyLeft ord call.probeCol)
      (call.sortedLeft weights ord) := inOrder_stableSort (h.consistent_left htrans)
  have hrs : Ascends (sortCmp weights) (keyRight call.table call.buildCol)
      (call.sortedRight weights) := inOrder_stableSort (h.consistent_right htrans)
  have hkl : ∀ l ∈ call.sortedLeft weights ord, keyLeft ord call.probeCol l ∈ call.keys := by
    intro l hl
    rw [keyLeft_eq (h.probe l (mem_sortedLeft.mp hl))]
    exact .inl ⟨l, mem_sortedLeft.mp hl, rfl⟩
  have hkr : ∀ r ∈ call.sortedRight weights, keyRight call.table call.buildCol r ∈ call.keys := by
    intro r hr
    rw [keyRight_eq (h.build r (mem_sortedRight.mp hr))]
    exact .inr ⟨r, mem_sortedRight.mp hr, rfl⟩
  have hskip : ∀ j k, sortCmp weights j k = .eq →
      decide (j = joinNullValue) = decide (k = joinNullValue) :=
    fun j k heq => decide_eq_decide.mpr (null_congr heq)
  rcases hequi with rfl | rfl | rfl
  · change (blocks (sortCmp weights) _ _ _ (call.sortedLeft weights ord)
      (call.sortedRight weights)).map _ = _
    rw [blocks_eq htrans hskip hls hrs hkl hkr, pairs, List.map_flatMap]
    refine List.flatMap_congr fun l hl => ?_
    rw [List.map_map, List.filter_congr fun r hr =>
      h.joins_eq (mem_sortedLeft.mp hl) (mem_sortedRight.mp hr)]
    rfl
  · change (runs (sortCmp weights) _ _ _ (call.sortedLeft weights ord)
      (call.sortedRight weights)).flatMap _ = _
    rw [runs_eq htrans hls hrs hkl hkr, List.flatMap_map]
    refine List.flatMap_congr fun l hl => congrArg (fun rows => orPadded (List.map _ rows) _) ?_
    refine (run_eq (keyRight call.table call.buildCol) _ _).trans (List.filter_congr fun r hr => ?_)
    rw [related, keyLeft_eq (h.probe l (mem_sortedLeft.mp hl)),
      keyRight_eq (h.build r (mem_sortedRight.mp hr))]
  · change (runs (sortCmp weights) _ _ _ (call.sortedRight weights)
      (call.sortedLeft weights ord)).flatMap _ = _
    rw [runs_eq htrans hrs hls hkr hkl, List.flatMap_map]
    refine List.flatMap_congr fun r hr => congrArg (fun rows => orPadded (List.map _ rows) _) ?_
    refine (run_eq (keyLeft ord call.probeCol) _ _).trans (List.filter_congr fun l hl => ?_)
    rw [related, keyLeft_eq (h.probe l (mem_sortedLeft.mp hl)),
      keyRight_eq (h.build r (mem_sortedRight.mp hr)), keysJoin_comm]

end

end Call

end

end RusqlEngine.Join
