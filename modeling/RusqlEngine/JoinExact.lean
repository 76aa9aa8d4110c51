import RusqlEngine.JoinRelation

/-!
# One relation for three algorithms

The hash join gives the rows of the nested loop exactly where keys are in one bucket when they are
equal. The sort-merge join gives them where the comparison of the keys is transitive, but for the
columns of a padded right row; among keys whose comparison runs in a circle it misses rows.
-/

namespace RusqlEngine.Join

open UnicodeCollation SortMerge RowList
open Buffer (Bytes)

variable {weights : Table} {ord : RowOrder}

namespace Call

variable {call : Call} {joinType : JoinType} {l r : ByteRow} {row : Option ByteRow}

/-! ### Buckets -/

/-- Keys that are not NULL are in one bucket exactly when they are equal. -/
def OneBucket (weights : Table) (call : Call) : Prop :=
  ∀ l ∈ call.left, ∀ r ∈ call.right, cell call.probeCol l ≠ joinNullValue →
    cell call.buildCol r ≠ joinNullValue →
    (NumericKey.normalizeNumericKey weights (cell call.probeCol l) =
        NumericKey.normalizeNumericKey weights (cell call.buildCol r) ↔
      keysEqual weights (cell call.probeCol l) (cell call.buildCol r))

theorem oneBucket_iff : call.OneBucket weights ↔ ∀ l ∈ call.left, ∀ r ∈ call.right,
    call.related (keysShare weights) l r = call.related (keysJoin weights) l r := by
  refine forall₂_congr fun l _ => forall₂_congr fun r _ => ?_
  rw [related, related, keysShare, keysJoin, decide_eq_decide]
  constructor
  · intro h
    exact and_congr_right fun hl => and_congr_right fun hr => h hl hr
  · intro h hl hr
    rwa [and_iff_right hl, and_iff_right hr, and_iff_right hl, and_iff_right hr] at h

variable (h : call.Joinable)
include h

theorem Joinable.mem_joined {R : Bytes → Bytes → Bool} (hl : l ∈ call.left) (hr : r ∈ call.right) :
    mergeRight ord l r call.table ∈ call.joined ord R row .inner ↔ call.related R l r := by
  rw [joined, joinOn, List.mem_flatMap]
  constructor
  · rintro ⟨l', hl', hmem⟩
    obtain ⟨r', hr', hmerged⟩ := List.mem_map.mp hmem
    obtain ⟨hr', hrelated⟩ := List.mem_filter.mp hr'
    have hprobe := congrArg (fun merged => merged.lookup call.probeCol) hmerged
    have hbuild :=
      congrArg (fun merged => merged.lookup (qualified call.table call.buildCol)) hmerged
    rw [h.lookup_probe hl', h.lookup_probe hl, Option.some.injEq] at hprobe
    rw [h.lookup_build hr', h.lookup_build hr, Option.some.injEq] at hbuild
    rw [related, hprobe, hbuild] at hrelated
    exact hrelated
  · intro hrelated
    exact ⟨l, hl, List.mem_map.mpr ⟨r, List.mem_filter.mpr ⟨hr, hrelated⟩, rfl⟩⟩

theorem Joinable.hash_perm_iff {cpus : ℕ} :
    (∀ joinType, Equi joinType → (call.hash weights ord cpus joinType).Perm
      (call.nestedLoop weights ord joinType)) ↔ call.OneBucket weights := by
  rw [oneBucket_iff]
  constructor
  · intro hperm l hl r hr
    have hinner := hperm .inner (.inl rfl)
    rw [hash_eq h (.inl rfl), nestedLoop_eq h (.inl rfl)] at hinner
    have hmem := hinner.mem_iff (a := mergeRight ord l r call.table)
    rwa [h.mem_joined hl hr, h.mem_joined hl hr, ← Bool.eq_iff_iff] at hmem
  · intro hsame joinType hequi
    rw [hash_eq h hequi, nestedLoop_eq h hequi, joined, joinOn_congr hsame, joined]

/-! ### Padding -/

omit h

/-- The first of the left rows whose key is least, as the sort finds it. -/
def leastRow (weights : Table) (call : Call) : Option ByteRow :=
  call.left.find? fun l => call.left.all fun l' =>
    sortCmp weights (cell call.probeCol l) (cell call.probeCol l') ≠ .gt

/-- Without columns to pad: a right row that joins no left row holds NULL in each column that only
one of the two has, the first left row and the first of the least. -/
def PaddedAlike (weights : Table) (ord : RowOrder) (call : Call) : Prop :=
  call.leftPad = none → ∀ r ∈ call.right,
    (∀ l ∈ call.left, call.related (keysJoin weights) l r = false) → ∀ col,
      (col ∈ nonQualifiedKeys ord (call.leastRow weights) ↔
        col ∈ nonQualifiedKeys ord call.left.head?) ∨ r.lookup col = some joinNullValue

def padded (ord : RowOrder) (call : Call) (cols : List Bytes) (r : ByteRow) : ByteRow :=
  mergeRight ord (padLeft cols) r call.table

/-- The right rows that no left row is joined with. -/
def alone (weights : Table) (call : Call) : List ByteRow :=
  call.right.filter fun r => (call.left.filter fun l => call.related (keysJoin weights) l r).isEmpty

theorem mem_alone : r ∈ call.alone weights ↔
    r ∈ call.right ∧ ∀ l ∈ call.left, call.related (keysJoin weights) l r = false := by
  rw [alone, List.mem_filter, List.isEmpty_iff, List.filter_eq_nil_iff]
  refine and_congr_right fun _ => forall₂_congr fun l _ => ?_
  rw [Bool.not_eq_true]

theorem flatMap_orPadded {α : Type} (rows : List α) (joined : α → List ByteRow)
    (pad : α → ByteRow) : (rows.flatMap fun x => orPadded (joined x) (pad x)).Perm
      (rows.flatMap joined ++ (rows.filter fun x => (joined x).isEmpty).map pad) := by
  induction rows with
  | nil => exact List.Perm.refl _
  | cons x rows ih =>
    rw [List.flatMap_cons, List.flatMap_cons, List.filter_cons, orPadded]
    cases hx : (joined x).isEmpty with
    | true =>
      rw [List.isEmpty_iff.mp hx, if_pos rfl, if_pos rfl, List.nil_append, List.map_cons]
      exact (ih.cons (pad x)).trans List.perm_middle.symm
    | false =>
      rw [if_neg Bool.false_ne_true, if_neg Bool.false_ne_true, List.append_assoc]
      exact ih.append_left (joined x)

variable {cols cols' : List Bytes}

/-- Right joins that pad other columns differ in the padded rows. -/
theorem right_perm_iff :
    (joinOn ord (call.related (keysJoin weights)) call.table call.rightSchemaCols cols call.left
        call.right .right).Perm
      (joinOn ord (call.related (keysJoin weights)) call.table call.rightSchemaCols cols' call.left
        call.right .right) ↔
      ((call.alone weights).map (call.padded ord cols)).Perm
        ((call.alone weights).map (call.padded ord cols')) := by
  have hsplit (cols : List Bytes) := flatMap_orPadded call.right
    (fun r => (call.left.filter fun l => call.related (keysJoin weights) l r).map fun l =>
      mergeRight ord l r call.table) (call.padded ord cols)
  simp only [List.isEmpty_map] at hsplit
  constructor
  · intro hperm
    exact (List.perm_append_left_iff _).mp ((hsplit cols).symm.trans (hperm.trans (hsplit cols')))
  · intro hperm
    exact (hsplit cols).trans ((hperm.append_left _).trans (hsplit cols').symm)

theorem lookup_padded {x : Bytes} (hx : ∀ k ∈ r, x ≠ qualified call.table k) :
    (call.padded ord cols r).lookup x =
      (if x ∈ cols then some joinNullValue else none).or (r.lookup x) := by
  rw [padded, lookup_mergeRight hx, lookup_padLeft]

theorem padded_eq (hsame : ∀ col, (col ∈ cols ↔ col ∈ cols') ∨ r.lookup col = some joinNullValue) :
    call.padded ord cols r = call.padded ord cols' r := by
  refine Finmap.ext_lookup fun x => ?_
  by_cases hx : ∃ k ∈ r, x = qualified call.table k
  · obtain ⟨k, hk, rfl⟩ := hx
    rw [padded, padded, lookup_mergeRight_qualified hk, lookup_mergeRight_qualified hk]
  · have hne : ∀ k ∈ r, x ≠ qualified call.table k := fun k hk heq => hx ⟨k, hk, heq⟩
    rw [lookup_padded hne, lookup_padded hne]
    rcases hsame x with hiff | hnull
    · simp only [hiff]
    · rw [hnull]
      split <;> split <;> rfl

theorem null_of_padded_perm {col : Bytes} (hdot : dot ∉ col)
    (hperm : ((call.alone weights).map (call.padded ord cols)).Perm
      ((call.alone weights).map (call.padded ord cols')))
    (hcol : col ∈ cols) (hcol' : col ∉ cols') (hr : r ∈ call.alone weights) :
    r.lookup col = some joinNullValue := by
  have hmem := hperm.mem_iff.mpr (List.mem_map_of_mem hr)
  obtain ⟨r', -, heq⟩ := List.mem_map.mp hmem
  have hlookup := congrArg (fun padded => padded.lookup col) heq
  rw [lookup_padded fun k _ => ne_qualified hdot k, lookup_padded fun k _ => ne_qualified hdot k,
    if_pos hcol, if_neg hcol', Option.some_or, Option.none_or] at hlookup
  exact hlookup.symm

theorem padded_perm_iff (hcols : ∀ col ∈ cols, dot ∉ col) (hcols' : ∀ col ∈ cols', dot ∉ col) :
    ((call.alone weights).map (call.padded ord cols)).Perm
        ((call.alone weights).map (call.padded ord cols')) ↔
      ∀ r ∈ call.alone weights, ∀ col,
        (col ∈ cols ↔ col ∈ cols') ∨ r.lookup col = some joinNullValue := by
  constructor
  · intro hperm r hr col
    by_cases hcol : col ∈ cols
    · by_cases hcol' : col ∈ cols'
      · exact .inl (iff_of_true hcol hcol')
      · exact .inr (null_of_padded_perm (hcols col hcol) hperm hcol hcol' hr)
    · by_cases hcol' : col ∈ cols'
      · exact .inr (null_of_padded_perm (hcols' col hcol') hperm.symm hcol' hcol hr)
      · exact .inl (iff_of_false hcol hcol')
  · intro hsame
    exact List.Perm.of_eq (List.map_congr_left fun r hr => padded_eq (hsame r hr))

theorem paddedAlike_iff : (call.joined ord (keysJoin weights) (call.leastRow weights) .right).Perm
    (call.joined ord (keysJoin weights) call.left.head? .right) ↔ call.PaddedAlike weights ord := by
  rw [joined, joined, right_perm_iff, PaddedAlike, padCols, padCols]
  cases hpad : call.leftPad with
  | some cols =>
    refine iff_of_true (List.Perm.refl _) fun hnone => ?_
    cases hnone
  | none =>
    rw [Option.getD_none, Option.getD_none, padded_perm_iff (fun _ => mem_nonQualifiedKeys)
      fun _ => mem_nonQualifiedKeys]
    constructor
    · intro hsame _ r hr hnone
      exact hsame r (mem_alone.mpr ⟨hr, hnone⟩)
    · intro hsame r hr
      exact hsame rfl r (mem_alone.mp hr).1 (mem_alone.mp hr).2

/-! ### The sort-merge join -/

include h

theorem Joinable.head?_sortedLeft (htrans : TransOn (sortCmp weights) call.keys) :
    (call.sortedLeft weights ord).head? = call.leastRow weights := by
  rw [sortedLeft, head?_stableSort (h.consistent_left htrans), leastRow]
  refine List.find?_congr fun l hl => ?_
  rw [isLeast, Bool.eq_iff_iff, List.all_eq_true, List.all_eq_true]
  refine forall₂_congr fun l' hl' => ?_
  rw [bne_iff_ne, decide_eq_true_eq, keyLeft_eq (h.probe l hl), keyLeft_eq (h.probe l' hl')]

/-- Where the key comparison is transitive, the sort-merge join gives the rows of the nested loop,
but for the padding of a right join. -/
theorem Joinable.sortMerge_perm_iff (htrans : TransOn (sortCmp weights) call.keys)
    (hequi : Equi joinType) :
    (call.sortMerge weights ord joinType).Perm (call.nestedLoop weights ord joinType) ↔
      (joinType = .right → call.PaddedAlike weights ord) := by
  have hsorted : (call.sortMerge weights ord joinType).Perm
      (call.joined ord (keysJoin weights) (call.leastRow weights) joinType) := by
    rw [h.sortMerge_eq htrans hequi, h.head?_sortedLeft htrans]
    exact joinOn_perm (stableSort_perm _ _) (stableSort_perm _ _)
  rw [nestedLoop_eq h hequi]
  rcases hequi with rfl | rfl | rfl
  · exact iff_of_true hsorted fun hright => by cases hright
  · exact iff_of_true hsorted fun hright => by cases hright
  · constructor
    · intro hperm _
      exact paddedAlike_iff.mp (hsorted.symm.trans hperm)
    · intro hpadded
      exact hsorted.trans (paddedAlike_iff.mpr (hpadded rfl))

end Call

/-! ### Keys in a circle -/

section

/-- The row with the key in its only column `k`. -/
def keyRow (key : Bytes) : ByteRow :=
  Finmap.singleton [0x6B] key

/-- A join of rows that have a key and nothing else. -/
def keyCall (left right : List Bytes) : Call where
  left := left.map keyRow
  right := right.map keyRow
  table := [0x72]
  probeCol := [0x6B]
  buildCol := [0x6B]
  rightSchemaCols := [[0x6B]]
  leftPad := none

variable {left right : List Bytes} {a b c k : Bytes}

theorem cell_keyRow : cell [0x6B] (keyRow k) = k := by
  rw [cell, keyRow, Finmap.lookup_singleton_eq, Option.getD_some]

theorem mem_keyRow : [0x6B] ∈ keyRow k :=
  (Finmap.mem_singleton _ _ _).mpr rfl

theorem keyCall_joinable : (keyCall left right).Joinable where
  build r hr := by
    obtain ⟨k, -, rfl⟩ := List.mem_map.mp hr
    exact mem_keyRow
  probe l hl := by
    obtain ⟨k, -, rfl⟩ := List.mem_map.mp hl
    exact mem_keyRow
  unqualified := (by decide : dot ∉ [0x6B])

theorem keys_keyCall : k ∈ (keyCall left right).keys ↔ k ∈ left ∨ k ∈ right := by
  constructor
  · rintro (⟨row, hrow, rfl⟩ | ⟨row, hrow, rfl⟩)
    · obtain ⟨k, hk, rfl⟩ := List.mem_map.mp hrow
      exact .inl (cell_keyRow.symm ▸ hk)
    · obtain ⟨k, hk, rfl⟩ := List.mem_map.mp hrow
      exact .inr (cell_keyRow.symm ▸ hk)
  · rintro (hk | hk)
    · exact .inl ⟨keyRow k, List.mem_map_of_mem hk, cell_keyRow⟩
    · exact .inr ⟨keyRow k, List.mem_map_of_mem hk, cell_keyRow⟩

theorem sortMerge_keyCall {rest : List ByteRow}
    (hsorted : (keyCall [k] right).sortedRight weights = keyRow a :: rest)
    (hk : k ≠ joinNullValue) (ha : a ≠ joinNullValue) (hlt : sortCmp weights k a = .lt) :
    (keyCall [k] right).sortMerge weights ord .inner = [] := by
  change (blocks (sortCmp weights) _ _ _ ((keyCall [k] right).sortedLeft weights ord)
    ((keyCall [k] right).sortedRight weights)).map _ = []
  have hleft : (keyCall [k] right).sortedLeft weights ord = [keyRow k] :=
    List.mergeSort_singleton (keyRow k)
  have hkey : keyLeft ord (keyCall [k] right).probeCol (keyRow k) = k :=
    (keyLeft_eq mem_keyRow).trans cell_keyRow
  have hkey' : keyRight (keyCall [k] right).table (keyCall [k] right).buildCol (keyRow a) = a :=
    (keyRight_eq mem_keyRow).trans cell_keyRow
  rw [hleft, hsorted, blocks, hkey, hkey', if_neg (by simpa using hk),
    if_neg (by simpa using ha), hlt]
  rw [blocks, List.map_nil]

theorem not_perm_keyCall {rest : List ByteRow}
    (hsorted : (keyCall [k] right).sortedRight weights = keyRow a :: rest)
    (hk : k ≠ joinNullValue) (ha : a ≠ joinNullValue) (hlt : sortCmp weights k a = .lt)
    (hb : b ∈ right) (hkb : sortCmp weights k b = .eq) :
    ¬ ((keyCall [k] right).sortMerge weights ord .inner).Perm
      ((keyCall [k] right).nestedLoop weights ord .inner) := by
  intro hperm
  rw [sortMerge_keyCall hsorted hk ha hlt, List.nil_perm,
    Call.nestedLoop_eq keyCall_joinable (.inl rfl)] at hperm
  have hb' : keyRow b ∈ (keyCall [k] right).right := List.mem_map_of_mem hb
  have hjoin : (keyCall [k] right).related (keysJoin weights) (keyRow k) (keyRow b) := by
    have hcell : cell (keyCall [k] right).probeCol (keyRow k) = k := cell_keyRow
    have hcell' : cell (keyCall [k] right).buildCol (keyRow b) = b := cell_keyRow
    rw [Call.related, hcell, hcell', keysJoin_iff]
    exact ⟨hk, mt (null_congr hkb).mpr hk, hkb⟩
  have hmem : mergeRight ord (keyRow k) (keyRow b) (keyCall [k] right).table ∈
      (keyCall [k] right).joined ord (keysJoin weights) (keyCall [k] right).left.head? .inner :=
    (keyCall_joinable.mem_joined List.mem_cons_self hb').mpr hjoin
  rw [hperm] at hmem
  exact absurd hmem List.not_mem_nil

theorem ne_null_of_le (hab : sortCmp weights a b ≠ .gt) (ha : a ≠ joinNullValue) :
    b ≠ joinNullValue := by
  rintro rfl
  have hlt : sortCmp weights joinNullValue a = .lt := by rw [sortCmp_null_left, if_neg ha]
  exact hab (Std.OrientedCmp.gt_of_lt hlt)

theorem keyRight_keyRow {table : Bytes} : keyRight table [0x6B] (keyRow k) = k :=
  (keyRight_eq mem_keyRow).trans cell_keyRow

theorem sortedRight_pair (hab : sortCmp weights a b ≠ .gt) :
    (keyCall left [a, b]).sortedRight weights = [keyRow a, keyRow b] := by
  refine stableSort_pair ?_
  change sortCmp weights (keyRight _ [0x6B] (keyRow a)) (keyRight _ [0x6B] (keyRow b)) ≠ .gt
  rwa [keyRight_keyRow, keyRight_keyRow]

theorem sortedRight_triple (hbc : sortCmp weights b c = .lt) (hab : sortCmp weights a b = .lt) :
    (keyCall left [b, c, a]).sortedRight weights = [keyRow a, keyRow b, keyRow c] := by
  refine stableSort_triple ?_ ?_
  · change sortCmp weights (keyRight _ [0x6B] (keyRow b)) (keyRight _ [0x6B] (keyRow c)) ≠ .gt
    rw [keyRight_keyRow, keyRight_keyRow, hbc]
    decide
  · change sortCmp weights (keyRight _ [0x6B] (keyRow b)) (keyRight _ [0x6B] (keyRow a)) = .gt
    rw [keyRight_keyRow, keyRight_keyRow]
    exact Std.OrientedCmp.gt_of_lt hab

theorem transOn_of_agrees (ord : RowOrder) {K : Set Bytes}
    (h : ∀ call : Call, call.Joinable → call.keys ⊆ K →
      (call.sortMerge weights ord .inner).Perm (call.nestedLoop weights ord .inner)) :
    TransOn (sortCmp weights) K := by
  intro a ha b hb c hc hab hbc hac
  have hca : sortCmp weights c a = .lt := Std.OrientedCmp.lt_of_gt hac
  have hanull : a ≠ joinNullValue := by
    rintro rfl
    rw [sortCmp_null_left] at hac
    split at hac <;> cases hac
  have hbnull := ne_null_of_le hab hanull
  have hcnull := ne_null_of_le hbc hbnull
  -- a left row whose key is below the first right key, and equal to a later one
  have hfails (k k' m : Bytes) (right : List Bytes) {rest : List ByteRow}
      (hin : ∀ j ∈ k :: right, j = a ∨ j = b ∨ j = c) (hk' : k' ∈ right) (hm : m ∈ right)
      (hsorted : (keyCall [k] right).sortedRight weights = keyRow k' :: rest)
      (hlt : sortCmp weights k k' = .lt) (heq : sortCmp weights k m = .eq) : False := by
    have hkeys : ∀ j ∈ k :: right, j ∈ K ∧ j ≠ joinNullValue := by
      intro j hj
      rcases hin j hj with rfl | rfl | rfl
      · exact ⟨ha, hanull⟩
      · exact ⟨hb, hbnull⟩
      · exact ⟨hc, hcnull⟩
    refine not_perm_keyCall hsorted (hkeys k List.mem_cons_self).2
      (hkeys k' (.tail _ hk')).2 hlt hm heq (h _ keyCall_joinable fun j hj => ?_)
    rcases keys_keyCall.mp hj with hj | hj
    · exact (hkeys j (List.mem_singleton.mp hj ▸ List.mem_cons_self)).1
    · exact (hkeys j (.tail _ hj)).1
  cases hbc' : sortCmp weights b c with
  | gt => exact hbc hbc'
  | eq =>
    exact hfails c a b [a, b] (by simp) (by simp) (by simp) (sortedRight_pair hab) hca
      (Std.OrientedCmp.eq_symm hbc')
  | lt =>
    cases hab' : sortCmp weights a b with
    | gt => exact hab hab'
    | eq =>
      exact hfails b c a [c, a] (by simp) (by simp) (by simp)
        (sortedRight_pair (by rw [hca]; decide)) hbc' (Std.OrientedCmp.eq_symm hab')
    | lt =>
      exact hfails c a c [b, c, a] (by simp) (by simp) (by simp)
        (sortedRight_triple hbc' hab') hca Std.ReflCmp.compare_self

theorem transOn_texts : TransOn (sortCmp weights) {k | NumericText.parseNumber k = none} := by
  have htexts {a b : Bytes} (ha : NumericText.parseNumber a = none) :
      sortCmp weights a b = compare weights a b := by
    refine sortCmp_texts weights fun hnumbers => ?_
    rw [ha] at hnumbers
    exact Bool.false_ne_true hnumbers.1
  intro a ha b hb c _ hab hbc
  rw [htexts ha] at hab
  rw [htexts hb] at hbc
  rw [htexts ha]
  exact Ordering.isLE_iff_ne_gt.mp
    (Std.TransCmp.isLE_trans (Ordering.isLE_iff_ne_gt.mpr hab) (Ordering.isLE_iff_ne_gt.mpr hbc))

end

/-- The hash join gives the rows of the nested loop where buckets tell equality, and the sort-merge
join where the comparison of the keys is transitive and padded rows are padded alike; among keys of
a set that is not so there are rows for which it does not. -/
theorem joins_agree_iff (weights : UnicodeCollation.Table) (ord : RowOrder) (cpus : ℕ) :
    (∀ call : Call, call.Joinable →
      ((∀ joinType, Equi joinType → (call.hash weights ord cpus joinType).Perm
          (call.nestedLoop weights ord joinType)) ↔ call.OneBucket weights) ∧
      (SortMerge.TransOn (sortCmp weights) call.keys → ∀ joinType, Equi joinType →
        ((call.sortMerge weights ord joinType).Perm (call.nestedLoop weights ord joinType) ↔
          (joinType = .right → call.PaddedAlike weights ord)))) ∧
    ∀ K : Set Bytes, SortMerge.TransOn (sortCmp weights) K ↔
      ∀ call : Call, call.Joinable → call.keys ⊆ K → ∀ joinType, Equi joinType →
        (joinType = .right → call.PaddedAlike weights ord) →
          (call.sortMerge weights ord joinType).Perm (call.nestedLoop weights ord joinType) := by
  refine ⟨fun call h => ⟨h.hash_perm_iff, fun htrans joinType => h.sortMerge_perm_iff htrans⟩,
    fun K => ⟨fun htrans call h hkeys joinType hequi => ?_, fun hagrees => ?_⟩⟩
  · exact (h.sortMerge_perm_iff (htrans.mono hkeys) hequi).mpr
  · refine transOn_of_agrees ord fun call h hkeys => ?_
    exact hagrees call h hkeys .inner (.inl rfl) fun hright => by cases hright

/-- The keys of a row in ascending order. -/
def ascendingKeys : RowOrder where
  keys row := (RowJson.sortedCells row).map Prod.fst
  mem_keys row k := by
    have hkeys : (RowJson.sortedCells row).map Prod.fst = row.keys.sort (· ≤ ·) := by
      rw [RowJson.sortedCells, List.map_map]
      exact List.map_id _
    rw [hkeys, Finset.mem_sort, Finmap.mem_keys]

/-- `a` and `A`. -/
theorem joins_agree_letters : ∀ joinType, Equi joinType →
    ((keyCall [[0x61]] [[0x41]]).hash UnicodeCollation.asciiTable ascendingKeys 4 joinType).Perm
        ((keyCall [[0x61]] [[0x41]]).nestedLoop UnicodeCollation.asciiTable ascendingKeys
          joinType) ∧
      ((keyCall [[0x61]] [[0x41]]).sortMerge UnicodeCollation.asciiTable ascendingKeys
        joinType).Perm ((keyCall [[0x61]] [[0x41]]).nestedLoop UnicodeCollation.asciiTable
          ascendingKeys joinType) := by
  have hbucket : (keyCall [[0x61]] [[0x41]]).OneBucket UnicodeCollation.asciiTable := by
    intro l hl r hr _ _
    rw [List.mem_singleton.mp hl, List.mem_singleton.mp hr]
    change NumericKey.normalizeNumericKey _ (cell [0x6B] (keyRow [0x61])) =
      NumericKey.normalizeNumericKey _ (cell [0x6B] (keyRow [0x41])) ↔
        keysEqual _ (cell [0x6B] (keyRow [0x61])) (cell [0x6B] (keyRow [0x41])) = true
    rw [cell_keyRow, cell_keyRow]
    decide
  have htrans : SortMerge.TransOn (sortCmp UnicodeCollation.asciiTable)
      (keyCall [[0x61]] [[0x41]]).keys := by
    refine transOn_texts.mono fun k hk => ?_
    rcases keys_keyCall.mp hk with hk | hk
    · rw [List.mem_singleton.mp hk]
      decide
    · rw [List.mem_singleton.mp hk]
      decide
  have hpadded : (keyCall [[0x61]] [[0x41]]).PaddedAlike UnicodeCollation.asciiTable
      ascendingKeys := by
    intro _ r hr halone
    have hnone := halone (keyRow [0x61]) List.mem_cons_self
    rw [List.mem_singleton.mp hr] at hnone
    change keysJoin _ (cell [0x6B] (keyRow [0x61])) (cell [0x6B] (keyRow [0x41])) = false at hnone
    rw [cell_keyRow, cell_keyRow] at hnone
    exact absurd hnone (by decide)
  obtain ⟨hjoins, -⟩ := joins_agree_iff UnicodeCollation.asciiTable ascendingKeys 4
  obtain ⟨hhash, hsort⟩ := hjoins (keyCall [[0x61]] [[0x41]]) keyCall_joinable
  exact fun joinType hequi => ⟨hhash.mpr hbucket joinType hequi,
    (hsort htrans joinType hequi).mpr fun _ => hpadded⟩

/-- `9007199254740993`, which is `2 ^ 53 + 1`. -/
def bigWhole : Bytes :=
  [0x39, 0x30, 0x30, 0x37, 0x31, 0x39, 0x39, 0x32, 0x35, 0x34, 0x37, 0x34, 0x30, 0x39, 0x39, 0x33]

/-- `9007199254740993.0`. -/
def bigPoint : Bytes :=
  bigWhole ++ [0x2E, 0x30]

/-- The hash join does not join `9007199254740993` with `9007199254740993.0`, and the sort-merge
join does not join `2` with `2.0` behind `2-`. -/
theorem keys_left_out :
    ((keyCall [bigWhole] [bigPoint]).Joinable ∧
      ¬ ((keyCall [bigWhole] [bigPoint]).hash UnicodeCollation.asciiTable ascendingKeys 4
          .inner).Perm
        ((keyCall [bigWhole] [bigPoint]).nestedLoop UnicodeCollation.asciiTable ascendingKeys
          .inner)) ∧
    ((keyCall [[0x32]] [[0x32, 0x2D], [0x32, 0x2E, 0x30]]).Joinable ∧
      ¬ ((keyCall [[0x32]] [[0x32, 0x2D], [0x32, 0x2E, 0x30]]).sortMerge
          UnicodeCollation.asciiTable ascendingKeys .inner).Perm
        ((keyCall [[0x32]] [[0x32, 0x2D], [0x32, 0x2E, 0x30]]).nestedLoop
          UnicodeCollation.asciiTable ascendingKeys .inner)) := by
  refine ⟨⟨keyCall_joinable, fun hperm => ?_⟩, keyCall_joinable, ?_⟩
  · have hmem := hperm.mem_iff (a := mergeRight ascendingKeys (keyRow bigWhole) (keyRow bigPoint)
      [0x72])
    rw [Call.hash_eq keyCall_joinable (.inl rfl), Call.nestedLoop_eq keyCall_joinable
      (.inl rfl)] at hmem
    have hiff := ((keyCall_joinable.mem_joined List.mem_cons_self List.mem_cons_self).symm.trans
      hmem).trans (keyCall_joinable.mem_joined List.mem_cons_self List.mem_cons_self)
    change keysShare _ (cell [0x6B] (keyRow bigWhole)) (cell [0x6B] (keyRow bigPoint)) = true ↔
      keysJoin _ (cell [0x6B] (keyRow bigWhole)) (cell [0x6B] (keyRow bigPoint)) = true at hiff
    rw [cell_keyRow, cell_keyRow] at hiff
    exact absurd hiff (by decide +kernel)
  · refine not_perm_keyCall (sortedRight_pair (by decide)) (by decide) (by decide) ?_
      (.tail _ List.mem_cons_self) ?_
    · decide +kernel
    · decide +kernel

end RusqlEngine.Join
