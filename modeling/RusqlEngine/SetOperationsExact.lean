import RusqlEngine.SetOperations

/-!
# The multiplicities of set operations

A class of rows are those with the same keys in all their columns. Each loop keeps so many copies of
a class as its operation has for the copies on the two sides, and those are the first ones; only the
counters of EXCEPT ALL pass over the first copies and leave the later ones.
-/

namespace RusqlEngine.SetOperations

open Copies UnicodeCollation Finmap
open Buffer (Bytes)

/-! ### The loops -/

section

variable {key : ByteRow → List Bytes}

theorem keepDistinct_eq (wanted : List Bytes → Bool) : ∀ (result rows : List ByteRow),
    keepDistinct key wanted result rows = result ++
      firstCopies key (fun k => if wanted k ∧ k ∉ result.map key then 1 else 0) rows
  | result, [] => (List.append_nil result).symm
  | result, row :: rows => by
      have hany : (result.any fun r => key r = key row) ↔ key row ∈ result.map key := by
        simp only [List.any_eq_true, decide_eq_true_eq, List.mem_map]
      rw [keepDistinct, firstCopies]
      by_cases hkeep : wanted (key row) ∧ key row ∉ result.map key
      · have hspend : spend (fun k => if wanted k ∧ k ∉ result.map key then 1 else 0) (key row) =
            fun k => if wanted k ∧ k ∉ (result ++ [row]).map key then 1 else 0 := by
          funext k
          rw [spend]
          by_cases hk : k = key row <;> simp [hk, hkeep]
        have hcond : (wanted (key row) && !result.any fun r => key r = key row) := by
          rw [Bool.and_eq_true, Bool.not_eq_true', ← Bool.not_eq_true, hany]
          exact hkeep
        rw [if_pos hcond, if_pos hkeep, if_pos Nat.one_pos, keepDistinct_eq, hspend,
          List.append_assoc, List.singleton_append]
      · have hcond : ¬ (wanted (key row) && !result.any fun r => key r = key row) := by
          rw [Bool.and_eq_true, Bool.not_eq_true', ← Bool.not_eq_true, hany]
          exact hkeep
        rw [if_neg hcond, if_neg hkeep, if_neg (Nat.lt_irrefl 0), keepDistinct_eq]

/-- The rows of the right side with a key that are not matched yet. -/
def free (rightKeys : List (List Bytes)) (matched : List ℕ) (k : List Bytes) : ℕ :=
  (List.range rightKeys.length).countP fun i => i ∉ matched ∧ rightKeys[i]? = some k

variable (rightKeys : List (List Bytes))

theorem free_nil : free rightKeys [] = copies id rightKeys := by
  funext k
  have hmap : (List.range rightKeys.length).map (rightKeys[·]?) = rightKeys.map some := by
    refine List.ext_getElem (by simp) fun i hi _ => ?_
    simp only [List.length_map, List.length_range] at hi
    simp [hi]
  calc free rightKeys [] k
      = (List.range rightKeys.length).countP ((fun key => key = some k) ∘ (rightKeys[·]?)) := by
        refine List.countP_congr fun i _ => ?_
        simp
    _ = (rightKeys.map some).countP fun key => key = some k := by rw [← List.countP_map, hmap]
    _ = rightKeys.countP fun key => key = k := by
        rw [List.countP_map]
        exact List.countP_congr fun key _ => by simp
    _ = copies id rightKeys k := by
        rw [copies, List.map_id]
        rfl

theorem free_append {rightKeys : List (List Bytes)} {matched : List ℕ} {k : List Bytes} {pos : ℕ}
    (h : firstFree rightKeys matched k = some pos) :
    free rightKeys (matched ++ [pos]) = spend (free rightKeys matched) k ∧
      0 < free rightKeys matched k := by
  have hmem := List.mem_of_find?_eq_some h
  have hpos := List.find?_some h
  have hone : 1 ≤ (List.range rightKeys.length).countP fun i =>
      i ∉ matched ∧ rightKeys[i]? = some k := List.countP_pos_iff.mpr ⟨pos, hmem, hpos⟩
  refine ⟨funext fun k' => ?_, hone⟩
  have hsplit : free rightKeys (matched ++ [pos]) k' =
      ((List.range rightKeys.length).erase pos).countP fun i =>
        i ∉ matched ∧ rightKeys[i]? = some k' := by
    rw [List.nodup_range.erase_eq_filter, List.countP_filter, free]
    refine List.countP_congr fun i _ => ?_
    simp only [List.mem_append, List.mem_singleton, not_or, decide_eq_true_eq, bne_iff_ne,
      Bool.and_eq_true]
    tauto
  simp only [decide_eq_true_eq] at hpos
  rw [hsplit, List.countP_erase, spend]
  split_ifs with hdrop hk hk
  · rw [hk]
    rfl
  · have hk' := (of_decide_eq_true hdrop.2).2
    exact absurd (Option.some.inj (hk'.symm.trans hpos.2)) hk
  · exact absurd ⟨hmem, by simpa [hk] using hpos⟩ hdrop
  · rfl

theorem intersectAll_eq : ∀ (matched : List ℕ) (rows : List ByteRow),
    intersectAll key rightKeys matched rows = firstCopies key (free rightKeys matched) rows
  | matched, [] => rfl
  | matched, row :: rows => by
      rw [intersectAll, firstCopies]
      cases hfree : firstFree rightKeys matched (key row) with
      | none =>
        have hzero : free rightKeys matched (key row) = 0 :=
          List.countP_eq_zero.mpr fun i hi => List.find?_eq_none.mp hfree i hi
        rw [hzero, if_neg (Nat.lt_irrefl 0), ← intersectAll_eq]
      | some pos =>
        obtain ⟨hspend, hpos⟩ := free_append hfree
        rw [if_pos hpos, ← hspend, ← intersectAll_eq]

theorem countKeys_eq : countKeys rightKeys = copies id rightKeys := by
  have hcounts : ∀ (keys : List (List Bytes)) (counts : List Bytes → ℕ) (k : List Bytes),
      keys.foldl (fun counts k => Function.update counts k (counts k + 1)) counts k =
        counts k + copies id keys k := by
    intro keys
    induction keys with
    | nil => exact fun _ _ => rfl
    | cons k' keys ih =>
      intro counts k
      rw [List.foldl_cons, ih, copies_cons, Function.update_apply, id]
      split_ifs with hk
      · rw [hk]
        omega
      · rw [Nat.add_zero]
  funext k
  exact (hcounts rightKeys _ k).trans (Nat.zero_add _)

theorem exceptAll_eq : ∀ (counts : List Bytes → ℕ) (rows : List ByteRow),
    exceptAll key counts rows = laterCopies key counts rows
  | _, [] => rfl
  | counts, row :: rows => by
      have hspend : Function.update counts (key row) (counts (key row) - 1) =
          spend counts (key row) := by
        funext k
        rw [Function.update_apply, spend]
      rw [exceptAll, laterCopies, hspend, exceptAll_eq, exceptAll_eq]

end

/-! ### The right side by position -/

section

variable (value : ℕ → Bytes)

theorem lookup_foldl_insert_of_notMem {c : Bytes} :
    ∀ (l : List (Bytes × ℕ)) (r : ByteRow), c ∉ l.map Prod.fst →
      (l.foldl (fun r x => r.insert x.1 (value x.2)) r).lookup c = r.lookup c
  | [], _, _ => rfl
  | x :: l, r, h => by
      simp only [List.map_cons, List.mem_cons, not_or] at h
      rw [List.foldl_cons, lookup_foldl_insert_of_notMem l _ h.2, lookup_insert_of_ne _ h.1]

theorem lookup_foldl_insert {c : Bytes} {i : ℕ} :
    ∀ (l : List (Bytes × ℕ)) (r : ByteRow), (l.map Prod.fst).Nodup → (c, i) ∈ l →
      (l.foldl (fun r x => r.insert x.1 (value x.2)) r).lookup c = some (value i)
  | x :: l, r, hnodup, hmem => by
      rw [List.map_cons, List.nodup_cons] at hnodup
      rw [List.foldl_cons]
      rcases List.mem_cons.mp hmem with rfl | hmem
      · rw [lookup_foldl_insert_of_notMem value l _ hnodup.1, lookup_insert]
      · exact lookup_foldl_insert l _ hnodup.2 hmem

variable {cols rightCols : List Bytes} {row : ByteRow}

theorem lookup_remap (hnodup : cols.Nodup) (hmin : xminName ∉ cols) (hmax : xmaxName ∉ cols) {i : ℕ}
    {c : Bytes} (hc : cols[i]? = some c) :
    (remap cols rightCols row).lookup c = some ((rightCols[i]?.bind row.lookup).getD []) := by
  have hmem : c ∈ cols := List.mem_of_getElem? hc
  have hne : ∀ {name}, name ∉ cols → c ≠ name := fun hname h => hname (h ▸ hmem)
  have hpair : (c, i) ∈ cols.zipIdx := List.mem_zipIdx_iff_getElem?.mpr hc
  have hnames : (cols.zipIdx.map Prod.fst).Nodup := by rwa [List.zipIdx_map_fst]
  rw [remap, lookup_insert_of_ne _ (hne hmax), lookup_insert_of_ne _ (hne hmin)]
  exact lookup_foldl_insert (fun i => (rightCols[i]?.bind row.lookup).getD []) _ ∅ hnames hpair

theorem map_lookup_remap (hnodup : cols.Nodup) (hmin : xminName ∉ cols) (hmax : xmaxName ∉ cols)
    (hlength : cols.length = rightCols.length) (hcells : ∀ c ∈ rightCols, c ∈ row) :
    cols.map (remap cols rightCols row).lookup = rightCols.map row.lookup := by
  refine List.ext_getElem (by simpa using hlength) fun i hi hi' => ?_
  rw [List.length_map] at hi hi'
  rw [List.getElem_map, List.getElem_map,
    lookup_remap hnodup hmin hmax (List.getElem?_eq_getElem hi), List.getElem?_eq_getElem hi',
    Option.bind_some]
  obtain ⟨text, htext⟩ :=
    Option.isSome_iff_exists.mp (lookup_isSome.mpr (hcells _ (List.getElem_mem hi')))
  rw [htext, Option.getD_some]

variable (table : Table)

theorem rowKey_eq_map (cols : List Bytes) (row : ByteRow) : rowKey table cols row =
    (cols.map row.lookup).map fun cell => cell.elim [] (key table) := by
  rw [rowKey, List.map_map]
  rfl

theorem rightKey_eq (hlength : cols.length = rightCols.length) (hcells : ∀ c ∈ rightCols, c ∈ row) :
    rightKey table cols rightCols row = rowKey table rightCols row := by
  refine List.ext_getElem (by simp [rightKey, rowKey, hlength]) fun i hi hi' => ?_
  simp only [rightKey, rowKey, List.length_map, List.length_zipIdx] at hi hi'
  obtain ⟨text, htext⟩ :=
    Option.isSome_iff_exists.mp (lookup_isSome.mpr (hcells _ (List.getElem_mem hi')))
  have hname : rightCols.getD i cols[i] = rightCols[i] := by
    rw [List.getD_eq_getElem?_getD, List.getElem?_eq_getElem hi', Option.getD_some]
  simp only [rightKey, rowKey, List.getElem_map]
  rw [List.getElem_zipIdx, Nat.zero_add, hname, htext, Option.getD_some, Option.elim_some]

end

/-! ### The order of the answer -/

section

theorem flatten_mergePairs (less : ByteRow → ByteRow → Bool) : ∀ chunks : List (List ByteRow),
    (mergePairs less chunks).flatten.Perm chunks.flatten
  | [] => List.Perm.refl _
  | [_] => List.Perm.refl _
  | a :: b :: rest => by
      rw [mergePairs, List.flatten_cons, List.flatten_cons, List.flatten_cons, ← List.append_assoc]
      exact (List.merge_perm_append _).append (flatten_mergePairs less rest)

theorem mergeChunks_perm (less : ByteRow → ByteRow → Bool) (chunks : List (List ByteRow)) :
    (mergeChunks less chunks).Perm chunks.flatten := by
  induction chunks using mergeChunks.induct less with
  | case1 => rw [mergeChunks]; rfl
  | case2 a => rw [mergeChunks, List.flatten_singleton]
  | case3 a b rest ih =>
    rw [mergeChunks]
    exact ih.trans (flatten_mergePairs less _)

/-- The slices take all the rows. -/
theorem sum_slices (q r : ℕ) : ∀ chunks : ℕ,
    ((List.range chunks).map fun c => q + if c < r then 1 else 0).sum = chunks * q + min chunks r
  | 0 => by rw [List.range_zero, List.map_nil, List.sum_nil, Nat.zero_mul, Nat.zero_min,
        Nat.add_zero]
  | chunks + 1 => by
      rw [List.range_succ, List.map_append, List.sum_append, sum_slices q r chunks,
        List.map_singleton, List.sum_singleton, Nat.succ_mul]
      split_ifs <;> omega

variable (env : Setting)

theorem parallelSort_perm (less : ByteRow → ByteRow → Bool) (rows : List ByteRow) :
    (parallelSort env less rows).Perm rows := by
  simp only [parallelSort]
  generalize min (if env.cpus = 0 then 4 else env.cpus) rows.length = chunks
  split
  · exact env.sort_perm less rows
  · have hchunks : 0 < chunks := by omega
    have hlengths : rows.length ≤ ((List.range chunks).map fun c =>
        rows.length / chunks + if c < rows.length % chunks then 1 else 0).sum := by
      have hmod := Nat.mod_lt rows.length hchunks
      rw [sum_slices, Nat.min_eq_right hmod.le, Nat.div_add_mod]
    refine (mergeChunks_perm less _).trans ?_
    rw [← List.flatMap_def]
    refine (List.Perm.flatMap_left _ fun slice _ => env.sort_perm less slice).trans ?_
    rw [List.flatMap_id', List.flatten_splitLengths _ _ hlengths]

theorem ordered_perm (orderBy : List OrderRows.OrderBy) (rows : List ByteRow) :
    (ordered env orderBy rows).Perm rows := by
  rw [ordered]
  split_ifs
  · exact List.Perm.refl rows
  · exact parallelSort_perm env _ rows
  · exact List.mergeSort_perm rows _

end

/-! ### The sides and the answer -/

/-- What `parse_table_output` reads: every row has a cell in each column. -/
structure TableRows.Reads (t : TableRows) : Prop where
  nodup : t.cols.Nodup
  cells : ∀ row ∈ t.rows, ∀ c ∈ t.cols, c ∈ row
  header : t.cols = [] → t.rows = []

/-- The two sides name as many columns, unless one of them has no rows. -/
structure Sides (shape : List Bytes) (left right : TableRows) : Prop where
  readsLeft : left.Reads
  readsRight : right.Reads
  nodup : shape.Nodup
  width : left.cols ≠ [] → right.cols ≠ [] → left.cols.length = right.cols.length

def slice (limit offset : Option ℕ) (rows : List ByteRow) : List ByteRow :=
  let rest := rows.drop (offset.getD 0)
  limit.elim rest rest.take

/-- The answer is a slice of the kept rows, in another order where ORDER BY names one. -/
structure Sliced (kept : TableRows) (orderBy : List OrderRows.OrderBy) (limit offset : Option ℕ)
    (answer : Except Bytes TableRows) : Prop where
  known : ∀ orders, resolveSetOrder orderBy kept.cols = .ok orders →
    ∃ rows, rows.Perm kept.rows ∧ (orderBy = [] → rows = kept.rows) ∧
      answer = .ok ⟨kept.cols, slice limit offset rows⟩
  unknown : kept.cols ≠ [] → ∀ e, resolveSetOrder orderBy kept.cols = .error e → answer = .error e

inductive Operation
  | union
  | intersect
  | except
  deriving DecidableEq

namespace Operation

def exec (env : Setting) (shape : List Bytes) (left right : TableRows) : Operation → Bool →
    List OrderRows.OrderBy → Option ℕ → Option ℕ → Except Bytes TableRows
  | union => execUnion env shape (.ok left) (.ok right)
  | intersect => execIntersect env (.ok left) (.ok right)
  | except => execExcept env (.ok left) (.ok right)

def cols (shape : List Bytes) (left right : TableRows) : Operation → List Bytes
  | union => unionCols shape left right
  | _ => matchedCols left right

/-- The copies that are kept of `m` on the left and `n` on the right. -/
def multiplicity : Operation → Bool → ℕ → ℕ → ℕ
  | union, true, m, n => m + n
  | union, false, m, n => if 0 < m + n then 1 else 0
  | intersect, true, m, n => min m n
  | intersect, false, m, n => if 0 < m ∧ 0 < n then 1 else 0
  | except, true, m, n => m - n
  | except, false, m, n => if 0 < m ∧ n = 0 then 1 else 0

/-- The rows to keep some of: those of the left side, and for a union then those of the right side
with their cells in place. -/
def Source (cols : List Bytes) (left right : TableRows) (source : List ByteRow) : Operation → Prop
  | union => ∃ named, source = left.rows ++ named ∧
      List.Forall₂ (fun row row' => cols.map row'.lookup = right.cols.map row.lookup)
        right.rows named
  | _ => source = left.rows

end Operation

/-- The kept rows have the multiplicities of the operation: the first copies of each class, or with
`later` those behind as many as the right side has. -/
structure Keeps (later : Bool) (env : Setting) (op : Operation) (all : Bool) (shape : List Bytes)
    (left right : TableRows) (kept : List ByteRow) : Prop where
  multiplicity : ∀ k, copies (rowKey env.table (op.cols shape left right)) kept k =
    op.multiplicity all (copies (rowKey env.table left.cols) left.rows k)
      (copies (rowKey env.table right.cols) right.rows k)
  picked : ∃ source, op.Source (op.cols shape left right) left right source ∧
    kept =
      if later then
        laterCopies (rowKey env.table (op.cols shape left right))
          (copies (rowKey env.table right.cols) right.rows) source
      else
        firstCopies (rowKey env.table (op.cols shape left right))
          (fun k => op.multiplicity all (copies (rowKey env.table left.cols) left.rows k)
            (copies (rowKey env.table right.cols) right.rows k)) source
  answers : ∀ orderBy limit offset, Sliced ⟨op.cols shape left right, kept⟩ orderBy limit offset
    (op.exec env shape left right all orderBy limit offset)

section

variable (env : Setting)

theorem applySetPostprocess_eq (result : List ByteRow) (orderBy : List OrderRows.OrderBy)
    (limit offset : Option ℕ) :
    applySetPostprocess env result orderBy limit offset =
      slice limit offset (ordered env orderBy result) := by
  have hdrop : ∀ (n : ℕ) (rows : List ByteRow), rows.drop (min n rows.length) = rows.drop n := by
    intro n rows
    rw [List.drop_eq_drop_iff]
    omega
  have htake : ∀ (n : ℕ) (rows : List ByteRow),
      (if n < rows.length then rows.take n else rows) = rows.take n := by
    intro n rows
    split_ifs with h
    · rfl
    · exact (List.take_of_length_le (Nat.le_of_not_lt h)).symm
  cases offset <;> cases limit <;> simp only [applySetPostprocess, slice, hdrop, htake] <;> rfl

theorem sliced (kept : TableRows) (orderBy : List OrderRows.OrderBy) (limit offset : Option ℕ) :
    Sliced kept orderBy limit offset (do
      let orderBy ← resolveSetOrder orderBy kept.cols
      .ok ⟨kept.cols, applySetPostprocess env kept.rows orderBy limit offset⟩) where
  known orders h := by
    refine ⟨ordered env orders kept.rows, ordered_perm env orders kept.rows, ?_, ?_⟩
    · rintro rfl
      obtain rfl : orders = [] := (Except.ok.inj h).symm
      rfl
    · rw [h, ← applySetPostprocess_eq]
      rfl
  unknown _ e h := by
    rw [h]
    rfl

end

/-! ### What the operations keep -/

section

variable {key : ByteRow → List Bytes} (rightKeys : List (List Bytes)) (rows : List ByteRow)

theorem mem_iff_copies {k : List Bytes} : k ∈ rightKeys ↔ 0 < copies id rightKeys k := by
  rw [copies_pos_iff, List.map_id]

theorem intersectRows_eq (all : Bool) : intersectRows key all rightKeys rows =
    firstCopies key (fun k => Operation.intersect.multiplicity all (copies key rows k)
      (copies id rightKeys k)) rows := by
  cases all with
  | false =>
    simp only [intersectRows, Bool.false_eq_true, if_false, keepDistinct_eq, List.nil_append]
    refine firstCopies_congr fun k => ?_
    simp only [List.map_nil, List.not_mem_nil, not_false_eq_true, and_true, decide_eq_true_eq,
      Operation.multiplicity, mem_iff_copies]
    split_ifs <;> omega
  | true =>
    simp only [intersectRows, if_true, intersectAll_eq, free_nil]
    refine firstCopies_congr fun k => ?_
    simp only [Operation.multiplicity]
    omega

theorem exceptRows_eq : exceptRows key false rightKeys rows =
    firstCopies key (fun k => Operation.except.multiplicity false (copies key rows k)
      (copies id rightKeys k)) rows := by
  simp only [exceptRows, Bool.false_eq_true, if_false, keepDistinct_eq, List.nil_append]
  refine firstCopies_congr fun k => ?_
  simp only [List.map_nil, List.not_mem_nil, not_false_eq_true, and_true, decide_eq_true_eq,
    Operation.multiplicity, mem_iff_copies]
  split_ifs <;> omega

theorem exceptRows_all : exceptRows key true rightKeys rows =
    laterCopies key (copies id rightKeys) rows := by
  rw [exceptRows, if_pos rfl, countKeys_eq, exceptAll_eq]

end

def moved (shape : List Bytes) (left right : TableRows) : List ByteRow :=
  right.rows.map (remap (unionCols shape left right) right.cols)

namespace Sides

variable {shape : List Bytes} {left right : TableRows} (op : Operation)
  (table : Table)

theorem length_cols (h : Sides shape left right) (hright : right.cols ≠ []) :
    (op.cols shape left right).length = right.cols.length := by
  cases op with
  | union =>
    simp only [Operation.cols, unionCols]
    split_ifs with hleft hshape
    · exact hshape
    · rfl
    · exact h.width hleft hright
  | intersect | except =>
    simp only [Operation.cols, matchedCols]
    split_ifs with hleft
    · rfl
    · exact h.width hleft hright

theorem nodup_unionCols (h : Sides shape left right) : (unionCols shape left right).Nodup := by
  rw [unionCols]
  split_ifs
  · exact h.nodup
  · exact h.readsRight.nodup
  · exact h.readsLeft.nodup

theorem copies_left (h : Sides shape left right) :
    copies (rowKey table (op.cols shape left right)) left.rows =
      copies (rowKey table left.cols) left.rows := by
  by_cases hleft : left.cols = []
  · rw [h.readsLeft.header hleft]
    rfl
  · cases op <;> simp only [Operation.cols, unionCols, matchedCols, if_neg hleft]

theorem copies_rightKeys (h : Sides shape left right) :
    copies id (right.rows.map (rightKey table (op.cols shape left right) right.cols)) =
      copies (rowKey table right.cols) right.rows := by
  by_cases hright : right.cols = []
  · rw [h.readsRight.header hright]
    rfl
  · rw [List.map_congr_left fun row hrow =>
      rightKey_eq table (h.length_cols op hright) (h.readsRight.cells row hrow)]
    exact copies_map right.rows

variable {table}

theorem map_lookup_moved (h : Sides shape left right) (hmin : xminName ∉ unionCols shape left right)
    (hmax : xmaxName ∉ unionCols shape left right) {row : ByteRow} (hrow : row ∈ right.rows) :
    (unionCols shape left right).map
        (remap (unionCols shape left right) right.cols row).lookup = right.cols.map row.lookup := by
  have hright : right.cols ≠ [] := fun hnil =>
    List.not_mem_nil (h.readsRight.header hnil ▸ hrow)
  exact map_lookup_remap h.nodup_unionCols hmin hmax (h.length_cols .union hright)
    (h.readsRight.cells row hrow)

theorem copies_moved (h : Sides shape left right) (hmin : xminName ∉ unionCols shape left right)
    (hmax : xmaxName ∉ unionCols shape left right) :
    copies (rowKey table (unionCols shape left right)) (moved shape left right) =
      copies (rowKey table right.cols) right.rows := by
  rw [← copies_map, ← copies_map right.rows, moved, List.map_map]
  refine congrArg (copies id) (List.map_congr_left fun row hrow => ?_)
  rw [Function.comp_apply, rowKey_eq_map, rowKey_eq_map, h.map_lookup_moved hmin hmax hrow]

end Sides

section

variable {env : Setting} {op : Operation} {all : Bool} {shape : List Bytes} {left right : TableRows}

theorem Operation.multiplicity_le (m n : ℕ) :
    op.multiplicity all m n ≤ if op = union then m + n else m := by
  cases op <;> cases all <;> simp only [multiplicity, reduceCtorEq, if_true, if_false] <;> grind

theorem Keeps.of_firstCopies {kept source : List ByteRow}
    (hsource : op.Source (op.cols shape left right) left right source)
    (hle : ∀ k, op.multiplicity all (copies (rowKey env.table left.cols) left.rows k)
      (copies (rowKey env.table right.cols) right.rows k) ≤
        copies (rowKey env.table (op.cols shape left right)) source k)
    (hkept : kept = firstCopies (rowKey env.table (op.cols shape left right))
      (fun k => op.multiplicity all (copies (rowKey env.table left.cols) left.rows k)
        (copies (rowKey env.table right.cols) right.rows k)) source)
    (hanswers : ∀ orderBy limit offset, Sliced ⟨op.cols shape left right, kept⟩ orderBy limit offset
      (op.exec env shape left right all orderBy limit offset)) :
    Keeps false env op all shape left right kept where
  multiplicity k := by rw [hkept, copies_firstCopies, Nat.min_eq_left (hle k)]
  picked := ⟨source, hsource, hkept⟩
  answers := hanswers

theorem Sides.keeps_intersect (h : Sides shape left right) :
    Keeps false env .intersect all shape left right
      (intersectRows (rowKey env.table (matchedCols left right)) all
        (right.rows.map (rightKey env.table (matchedCols left right) right.cols)) left.rows) := by
  have hleft := h.copies_left .intersect env.table
  have hright := h.copies_rightKeys .intersect env.table
  refine Keeps.of_firstCopies rfl (fun k => ?_) ?_ fun orderBy limit offset =>
    sliced env ⟨matchedCols left right, _⟩ orderBy limit offset
  · rw [hleft]
    exact Operation.multiplicity_le _ _
  · rw [intersectRows_eq, ← hleft, ← hright]
    rfl

theorem Sides.keeps_except (h : Sides shape left right) :
    Keeps false env .except false shape left right
      (exceptRows (rowKey env.table (matchedCols left right)) false
        (right.rows.map (rightKey env.table (matchedCols left right) right.cols)) left.rows) := by
  have hleft := h.copies_left .except env.table
  have hright := h.copies_rightKeys .except env.table
  refine Keeps.of_firstCopies rfl (fun k => ?_) ?_ fun orderBy limit offset =>
    sliced env ⟨matchedCols left right, _⟩ orderBy limit offset
  · rw [hleft]
    exact Operation.multiplicity_le _ _
  · rw [exceptRows_eq, ← hleft, ← hright]
    rfl

theorem Sides.keeps_exceptAll (h : Sides shape left right) :
    Keeps true env .except true shape left right
      (exceptRows (rowKey env.table (matchedCols left right)) true
        (right.rows.map (rightKey env.table (matchedCols left right) right.cols)) left.rows) := by
  have hleft := h.copies_left .except env.table
  have hright := h.copies_rightKeys .except env.table
  have hkept : exceptRows (rowKey env.table (matchedCols left right)) true
      (right.rows.map (rightKey env.table (matchedCols left right) right.cols)) left.rows =
        laterCopies (rowKey env.table (matchedCols left right))
          (copies (rowKey env.table right.cols) right.rows) left.rows := by
    rw [exceptRows_all, ← hright]
    rfl
  refine ⟨fun k => ?_, ⟨left.rows, rfl, hkept⟩, fun orderBy limit offset =>
    sliced env ⟨matchedCols left right, _⟩ orderBy limit offset⟩
  rw [hkept, ← hleft]
  exact copies_laterCopies k _ _

/-- The rows that a union keeps. -/
def unionRows (table : Table) (all : Bool) (shape : List Bytes)
    (left right : TableRows) : List ByteRow :=
  if all then left.rows ++ moved shape left right
  else
    RowList.firstOfEach (rowKey table (unionCols shape left right)) []
      (left.rows ++ moved shape left right)

theorem Sides.sliced_union (h : Sides shape left right) (orderBy : List OrderRows.OrderBy)
    (limit offset : Option ℕ) :
    Sliced ⟨unionCols shape left right, unionRows env.table all shape left right⟩ orderBy limit
      offset (execUnion env shape (.ok left) (.ok right) all orderBy limit offset) := by
  by_cases hnil : left.cols = [] ∧ right.cols = []
  · have hcols : unionCols shape left right = [] := by
      rw [unionCols, if_pos hnil.1, hnil.2]
      split_ifs with hshape
      · exact List.length_eq_zero_iff.mp hshape
      · rfl
    have hrows : unionRows env.table all shape left right = [] := by
      rw [unionRows, moved, h.readsLeft.header hnil.1, h.readsRight.header hnil.2]
      cases all <;> rfl
    have hanswer : execUnion env shape (.ok left) (.ok right) all orderBy limit offset =
        .ok ⟨[], []⟩ := if_pos hnil
    rw [hcols, hrows, hanswer]
    refine ⟨fun _ _ => ⟨[], List.Perm.refl [], fun _ => rfl, ?_⟩, fun hne => absurd rfl hne⟩
    cases limit <;> simp [slice]
  · have hanswer : execUnion env shape (.ok left) (.ok right) all orderBy limit offset = (do
        let orderBy ← resolveSetOrder orderBy (unionCols shape left right)
        .ok ⟨unionCols shape left right, applySetPostprocess env
          (unionRows env.table all shape left right) orderBy limit offset⟩) := if_neg hnil
    rw [hanswer]
    exact sliced env ⟨unionCols shape left right, _⟩ orderBy limit offset

theorem Sides.keeps_union (h : Sides shape left right)
    (hmin : xminName ∉ unionCols shape left right) (hmax : xmaxName ∉ unionCols shape left right) :
    Keeps false env .union all shape left right (unionRows env.table all shape left right) := by
  have hcopies : ∀ k, copies (rowKey env.table (unionCols shape left right))
      (left.rows ++ moved shape left right) k =
        copies (rowKey env.table left.cols) left.rows k +
          copies (rowKey env.table right.cols) right.rows k := fun k => by
    rw [copies_append, h.copies_moved hmin hmax, ← h.copies_left .union env.table]
    rfl
  have hnamed : List.Forall₂ (fun row row' => (unionCols shape left right).map row'.lookup =
      right.cols.map row.lookup) right.rows (moved shape left right) := by
    rw [moved, List.forall₂_map_right_iff, List.forall₂_same]
    exact fun row hrow => h.map_lookup_moved hmin hmax hrow
  refine Keeps.of_firstCopies ⟨_, rfl, hnamed⟩ (fun k => ?_) ?_ fun orderBy limit offset =>
    h.sliced_union orderBy limit offset
  · exact (Operation.multiplicity_le _ _).trans (hcopies k).ge
  · rw [unionRows]
    cases all with
    | false =>
      rw [if_neg Bool.false_ne_true, firstOfEach_eq]
      refine firstCopies_congr fun k => ?_
      simp only [hcopies, Operation.multiplicity, List.not_mem_nil, if_false]
      split_ifs <;> omega
    | true =>
      exact (if_pos rfl).trans (firstCopies_eq_self fun k => (hcopies k).le).symm

end

/-- Every operation keeps as many copies of a class as it should, the first ones of the left side
and then of the right one, and answers with the slice of them; EXCEPT ALL keeps the later copies. -/
theorem multiplicities_exact {shape : List Bytes} {left right : TableRows}
    (h : Sides shape left right) (env : Setting) (op : Operation) (all : Bool)
    (hnames : op = .union →
      xminName ∉ unionCols shape left right ∧ xmaxName ∉ unionCols shape left right) :
    ∃ kept, Keeps (decide (op = .except) && all) env op all shape left right kept := by
  cases op with
  | union => exact ⟨_, h.keeps_union (hnames rfl).1 (hnames rfl).2⟩
  | intersect => exact ⟨_, h.keeps_intersect⟩
  | except =>
    cases all with
    | false => exact ⟨_, h.keeps_except⟩
    | true => exact ⟨_, h.keeps_exceptAll⟩

/-- Weights for ASCII texts, and a sort that nothing uses: the rows are few. -/
def asciiSetting : Setting where
  table := asciiTable
  parallelEnabled := false
  parallelMinRows := 0
  cpus := 0
  sort _ rows := rows
  sort_perm _ rows := List.Perm.refl rows

def oneColumn (column : Bytes) (cells : List Bytes) : TableRows :=
  ⟨[column], cells.map fun text => (∅ : ByteRow).insert column text⟩

theorem oneColumn_reads (column : Bytes) (cells : List Bytes) : (oneColumn column cells).Reads where
  nodup := List.nodup_singleton column
  cells row hrow c hc := by
    obtain ⟨text, -, rfl⟩ := List.mem_map.mp hrow
    exact mem_insert.mpr (.inl (List.mem_singleton.mp hc))
  header h := (List.cons_ne_nil _ _ h).elim

theorem oneColumn_sides (column column' : Bytes) (cells cells' : List Bytes) :
    Sides [] (oneColumn column cells) (oneColumn column' cells') where
  readsLeft := oneColumn_reads column cells
  readsRight := oneColumn_reads column' cells'
  nodup := List.nodup_nil
  width _ _ := rfl

/-- `a` and `A`, and then `A` and `b`. -/
theorem multiplicities_exact_letters : ∃ kept, Keeps false asciiSetting .union false []
    (oneColumn [0x63] [[0x61], [0x41]]) (oneColumn [0x64] [[0x41], [0x62]]) kept :=
  multiplicities_exact (oneColumn_sides _ _ _ _) asciiSetting .union false fun _ =>
    ⟨by decide, by decide⟩

theorem Keeps.eq_of_exec {later all : Bool} {env : Setting} {op : Operation} {shape : List Bytes}
    {left right : TableRows} {kept : List ByteRow} {answer : TableRows}
    (h : Keeps later env op all shape left right kept)
    (hexec : op.exec env shape left right all [] none none = .ok answer) : answer.rows = kept := by
  obtain ⟨rows, -, hrows, hanswer⟩ := (h.answers [] none none).known [] rfl
  rw [hexec] at hanswer
  rw [Except.ok.inj hanswer]
  exact hrows rfl

/-- Of `a` and `A`, EXCEPT ALL takes away the first for an `a` and keeps the second. Two rows of a
column `_xmin` are two classes for a union. -/
theorem not_multiplicities_first :
    (¬ ∃ kept, Keeps false asciiSetting .except true [] (oneColumn [0x63] [[0x61], [0x41]])
      (oneColumn [0x63] [[0x61]]) kept) ∧
    ¬ ∃ kept, Keeps false asciiSetting .union false [] (oneColumn xminName [[0x30]])
      (oneColumn xminName [[0x30]]) kept := by
  constructor
  · rintro ⟨kept, h⟩
    have hkept : (oneColumn [0x63] [[0x41]]).rows = kept := h.eq_of_exec rfl
    obtain ⟨source, rfl, hfirst⟩ := h.picked
    have hne : (oneColumn [0x63] [[0x41]]).rows ≠
        firstCopies (rowKey asciiSetting.table [[0x63]])
          (fun k => Operation.except.multiplicity true
            (copies (rowKey asciiSetting.table [[0x63]])
              (oneColumn [0x63] [[0x61], [0x41]]).rows k)
            (copies (rowKey asciiSetting.table [[0x63]]) (oneColumn [0x63] [[0x61]]).rows k))
          (oneColumn [0x63] [[0x61], [0x41]]).rows := by
      decide
    exact hne (hkept.trans hfirst)
  · rintro ⟨kept, h⟩
    have hexec : execUnion asciiSetting [] (.ok (oneColumn xminName [[0x30]]))
        (.ok (oneColumn xminName [[0x30]])) false [] none none =
          .ok ⟨[xminName], [(∅ : ByteRow).insert xminName [0x30],
            ((∅ : ByteRow).insert xminName [0x31]).insert xmaxName [0x30]]⟩ := rfl
    have hkept := h.eq_of_exec hexec
    have hone := h.multiplicity [[0x31]]
    rw [← hkept] at hone
    revert hone
    decide

end RusqlEngine.SetOperations
