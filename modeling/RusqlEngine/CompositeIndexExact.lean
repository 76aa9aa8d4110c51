import RusqlEngine.CompositeIndex

/-!
# A composite index finds the rows

The parts of a key are found again in its segments, so that the range of a prefix holds the keys
that have it. Each row that is present has one entry of its own as long as the tree tells the keys
apart; a look-up then finds exactly the rows with the values it is asked for.
-/

namespace RusqlEngine

open RowJson NumericKey UnicodeCollation
open Buffer (Byte Bytes)

namespace CompositeIndex

open KeyOrder Comparison Std

variable {table : Table} {json : Nlohmann} {index : CompositeIndex}
  {row : ByteRow}

/-! ### Keys and their parts -/

theorem makeKey_append : ∀ {as bs : List Bytes}, as ≠ [] → bs ≠ [] →
    makeKey (as ++ bs) = makeKey as ++ 0 :: makeKey bs
  | [], _, h, _ => absurd rfl h
  | [a], b :: bs, _, _ => rfl
  | [_], [], _, h => absurd rfl h
  | a :: a' :: as, bs, _, h => by
      rw [List.cons_append, List.cons_append, makeKey, makeKey, ← List.cons_append,
        makeKey_append (List.cons_ne_nil a' as) h, List.append_assoc, List.cons_append]

theorem segments_makeKey : ∀ {as bs : List Bytes}, (∀ a ∈ as, 0 ∉ a) → bs ≠ [] →
    segments (makeKey (as ++ bs)) = as ++ segments (makeKey bs)
  | [], _, _, _ => rfl
  | a :: as, bs, h, hbs => by
      have hrest : makeKey (a :: (as ++ bs)) = a ++ 0 :: makeKey (as ++ bs) :=
        makeKey_append (List.cons_ne_nil a []) (List.append_ne_nil_of_right_ne_nil as hbs)
      rw [List.cons_append, hrest, segments,
        List.splitOn_append_cons_self_of_not_mem (h a List.mem_cons_self), List.cons_append]
      exact congrArg _ (segments_makeKey (fun b hb => h b (.tail _ hb)) hbs)

theorem order_eq_lex (a b : Bytes) :
    order table a b = lex (fun _ => cmpKeySegment table .mixed) 0 (segments a) (segments b) :=
  cmpKeys_eq_lex [] a b

theorem lex_const {c : Bytes → Bytes → Ordering} : ∀ {i j : ℕ} {as bs : List Bytes},
    lex (fun _ => c) i as bs = lex (fun _ => c) j as bs
  | _, _, [], [] => rfl
  | _, _, [], _ :: _ => rfl
  | _, _, _ :: _, [] => rfl
  | i, j, a :: as, b :: bs => by
      rw [lex, lex, lex_const (i := i + 1) (j := j + 1)]

theorem nil_isLE : ∀ {ss : List Bytes} {i : ℕ}, ss ≠ [] →
    (lex (fun _ => cmpKeySegment table .mixed) i [[]] ss).isLE
  | [], _, h => absurd rfl h
  | s :: ss, i, _ => by
      have hend : (lex (fun _ => cmpKeySegment table .mixed) (i + 1) [] ss).isLE := by
        cases ss <;> rfl
      rw [lex]
      by_cases hs : s = []
      · rw [hs, cmpKeySegment_self, Ordering.eq_then]
        exact hend
      · rw [cmpKeySegment_mixed, mixedOrder_eq, rank_nil, Nat.compare_eq_lt.mpr (rank_pos hs)]
        rfl

theorem between_iff {norm as bs : List Bytes} (hnorm : ∀ v ∈ norm, 0 ∉ v) (has : ∀ a ∈ as, 0 ∉ a)
    (hne : norm ≠ []) (hlength : norm.length = as.length) (hbs : bs ≠ []) :
    between (order table) (makeKey norm ++ [0]) (makeKey norm ++ [0] ++ [0xFF])
        (makeKey (as ++ bs)) ↔
      List.Forall₂ (alike table .mixed) norm as ∧ (order table (makeKey bs) [0xFF]).isLE := by
  have hlo : makeKey norm ++ [0] = makeKey (norm ++ [[]]) :=
    (makeKey_append hne (List.cons_ne_nil [] [])).symm
  have hhi : makeKey norm ++ [0] ++ [0xFF] = makeKey (norm ++ [[0xFF]]) := by
    rw [makeKey_append hne (List.cons_ne_nil _ []), List.append_assoc]
    rfl
  have hsegments : segments (makeKey [([] : Bytes)]) = [[]] := rfl
  have hbyte : segments (makeKey [[(0xFF : Byte)]]) = [[0xFF]] := by decide
  have hsome : segments (makeKey bs) ≠ [] := List.splitOn_ne_nil 0 _
  have hforall : List.Forall₂ (alike table .mixed) norm as ↔
      lex (fun _ => cmpKeySegment table .mixed) 0 norm as = .eq := by
    rw [lex_eq_eq]
    simp only [cmpKeySegment_eq_eq]
  have hend : (order table (makeKey bs) [0xFF]).isLE ↔
      (lex (fun _ => cmpKeySegment table .mixed) (0 + as.length) (segments (makeKey bs))
        [[0xFF]]).isLE := by
    rw [order_eq_lex, lex_const]
    exact Iff.rfl
  have hswap : lex (fun _ => cmpKeySegment table .mixed) 0 as norm =
      (lex (fun _ => cmpKeySegment table .mixed) 0 norm as).swap := lex_eq_swap 0 as norm
  rw [hhi, hlo, between, order_eq_lex, order_eq_lex, segments_makeKey hnorm (List.cons_ne_nil _ []),
    segments_makeKey hnorm (List.cons_ne_nil _ []), segments_makeKey has hbs, hsegments, hbyte,
    lex_append hlength, lex_append hlength.symm, hforall, hend, hswap, Bool.and_eq_true]
  cases lex (fun _ => cmpKeySegment table .mixed) 0 norm as with
  | lt => exact ⟨fun h => Bool.noConfusion h.2, fun h => Ordering.noConfusion h.1⟩
  | eq => exact ⟨fun h => ⟨rfl, h.2⟩, fun h => ⟨nil_isLE hsome, h.2⟩⟩
  | gt => exact ⟨fun h => Bool.noConfusion h.1, fun h => Ordering.noConfusion h.1⟩

/-! ### Rows and their entries -/

theorem length_columnParts {parts : List Bytes} (h : index.columnParts table row = some parts) :
    parts.length = index.columns.length := by
  rw [columnParts] at h
  generalize index.columns = columns at h
  induction columns generalizing parts with
  | nil =>
    obtain rfl := Option.some.inj h
    rfl
  | cons col columns ih =>
    rw [List.mapM_cons] at h
    obtain ⟨part, _, h⟩ := Option.bind_eq_some_iff.mp h
    obtain ⟨rest, hrest, h⟩ := Option.bind_eq_some_iff.mp h
    obtain rfl := Option.some.inj h
    rw [List.length_cons, List.length_cons, ih hrest]

theorem insertRow_tree {index' : CompositeIndex}
    (h : index.insertRow table json row = some index') :
    ∃ tree, index' = { index with tree := tree } := by
  rw [insertRow] at h
  split at h
  next => exact ⟨index.tree, (Option.some.inj h).symm⟩
  next =>
    obtain ⟨_, _, rfl⟩ := Option.map_eq_some_iff.mp h
    exact ⟨_, rfl⟩

end CompositeIndex

namespace IndexedRows

open CompositeIndex Std

variable {table : Table} {json : Nlohmann} {index : CompositeIndex}
  {present : List ByteRow} {row : ByteRow}

/-- The entries of the tree are those of the rows that are present. -/
structure Holds (table : Table) (json : Nlohmann) (index : CompositeIndex)
    (present : List ByteRow) : Prop where
  wf : BPlusTree.WellFormed (order table) index.tree
  sorted : SortedMap.Sorted (order table) index.tree.collectAllKv
  entries : (index.tree.collectAllKv.map fun e => (some e.1, some e.2)).Perm
    (present.map fun row => (index.keyFromRow table row, rowToJson json row))

namespace Holds

theorem empty (index : CompositeIndex) : Holds table json { index with tree := none } [] :=
  ⟨nofun, List.Pairwise.nil, List.Perm.nil⟩

theorem exists_row (h : Holds table json index present) {e : Bytes × Bytes}
    (he : e ∈ index.tree.collectAllKv) :
    ∃ row ∈ present, index.keyFromRow table row = some e.1 := by
  have hmem := h.entries.mem_iff.mp (List.mem_map_of_mem he)
  obtain ⟨row, hrow, heq⟩ := List.mem_map.mp hmem
  exact ⟨row, hrow, (Prod.mk.inj heq).1⟩

theorem exists_entry (h : Holds table json index present) (hrow : row ∈ present) :
    ∃ e ∈ index.tree.collectAllKv, some e.1 = index.keyFromRow table row ∧
      some e.2 = rowToJson json row := by
  have hmem := h.entries.mem_iff.mpr (List.mem_map_of_mem hrow)
  obtain ⟨e, he, heq⟩ := List.mem_map.mp hmem
  exact ⟨e, he, (Prod.mk.inj heq).1, (Prod.mk.inj heq).2⟩

theorem insertRow (h : Holds table json index present) {index' : CompositeIndex}
    (hkey : (index.keyFromRow table row).isSome)
    (hown : ∀ row' ∈ present, ¬ sameEntry table index row row')
    (hinsert : index.insertRow table json row = some index') :
    Holds table json index' (row :: present) := by
  obtain ⟨key, hkey⟩ := Option.isSome_iff_exists.mp hkey
  rw [CompositeIndex.insertRow, hkey] at hinsert
  obtain ⟨text, htext, rfl⟩ := Option.map_eq_some_iff.mp hinsert
  have hfresh : ∀ e ∈ index.tree.collectAllKv, order table e.1 key ≠ .eq := by
    intro e he heq
    obtain ⟨row', hrow', hkey'⟩ := h.exists_row he
    exact hown row' hrow' ⟨key, hkey, e.1, hkey', OrientedCmp.eq_symm heq⟩
  obtain ⟨hwf, hcollect⟩ := BPlusTree.insert_wellFormed h.wf key text
  refine ⟨hwf, ?_, ?_⟩
  · rw [hcollect]
    exact h.sorted.insert
  · rw [hcollect]
    refine ((SortedMap.insert_perm hfresh).map _).trans ?_
    rw [List.map_cons, List.map_cons]
    change List.Perm _ ((index.keyFromRow table row, rowToJson json row) :: _)
    rw [hkey, htext]
    exact h.entries.cons _

theorem removeRow (h : Holds table json index present)
    (hown : ∀ row' ∈ present, sameEntry table index row row' → row' = row) :
    Holds table json (index.removeRow table row) (present.erase row) := by
  rw [CompositeIndex.removeRow]
  cases hkey : index.keyFromRow table row with
  | none =>
    have hrow : row ∉ present := by
      intro hrow
      obtain ⟨e, _, he, _⟩ := h.exists_entry hrow
      rw [hkey] at he
      exact nomatch he
    rw [List.erase_of_not_mem hrow]
    exact h
  | some key =>
    obtain ⟨hwf, hcollect⟩ := BPlusTree.remove_wellFormed h.wf key
    refine ⟨hwf, ?_, ?_⟩
    · rw [hcollect]
      exact h.sorted.erase
    · rw [hcollect]
      by_cases hrow : row ∈ present
      · obtain ⟨e, he, hekey, hetext⟩ := h.exists_entry hrow
        obtain rfl : e.1 = key := Option.some.inj (hekey.trans hkey)
        have hperm := (h.sorted.erase_perm he ReflCmp.compare_self).map
          fun e => (some e.1, some e.2)
        have hpresent := (List.perm_cons_erase hrow).map fun row =>
          (index.keyFromRow table row, rowToJson json row)
        rw [List.map_cons] at hperm hpresent
        rw [← hekey, ← hetext] at hpresent
        exact (hperm.symm.trans (h.entries.trans hpresent)).cons_inv
      · have hnone : ∀ e ∈ index.tree.collectAllKv, order table e.1 key ≠ .eq := by
          intro e he heq
          obtain ⟨row', hrow', hkey'⟩ := h.exists_row he
          obtain rfl := hown row' hrow' ⟨key, hkey, e.1, hkey', OrientedCmp.eq_symm heq⟩
          exact hrow hrow'
        rw [SortedMap.erase_eq_self hnone, List.erase_of_not_mem hrow]
        exact h.entries

/-- Rows that are inserted one after the other. -/
theorem foldlM : ∀ {rows : List ByteRow} {index index' : CompositeIndex} {present : List ByteRow},
    Holds table json index present → (∀ row ∈ rows, (index.keyFromRow table row).isSome) →
    (rows.Pairwise fun row row' => ¬ sameEntry table index row' row) →
    (∀ row ∈ rows, ∀ row' ∈ present, ¬ sameEntry table index row row') →
    rows.foldlM (CompositeIndex.insertRow table json) index = some index' →
    Holds table json index' (rows.reverse ++ present)
  | [], _, _, _, h, _, _, _, hfold => by
      obtain rfl := Option.some.inj hfold
      exact h
  | row :: rows, index, index', present, h, hkeys, hapart, hown, hfold => by
      obtain ⟨index₁, hinsert, hfold⟩ := Option.bind_eq_some_iff.mp hfold
      obtain ⟨hfirst, hrest⟩ := List.pairwise_cons.mp hapart
      have hholds := h.insertRow (hkeys row List.mem_cons_self)
        (hown row List.mem_cons_self) hinsert
      obtain ⟨tree, rfl⟩ := insertRow_tree hinsert
      rw [List.reverse_cons, List.append_assoc, List.singleton_append]
      refine foldlM hholds (fun row' hrow' => hkeys row' (.tail _ hrow')) hrest ?_
        hfold
      intro row₁ hrow₁ row₂ hrow₂
      rcases List.mem_cons.mp hrow₂ with rfl | hrow₂
      · exact hfirst row₁ hrow₁
      · exact hown row₁ (.tail _ hrow₁) row₂ hrow₂

theorem perm (h : Holds table json index present) {rows : List ByteRow}
    (hperm : present.Perm rows) : Holds table json index rows :=
  ⟨h.wf, h.sorted, h.entries.trans (hperm.map _)⟩

end Holds

theorem step_holds {s s' : IndexedRows} {op : IndexOp} (h : Holds table json s.index s.present)
    (hown : ownEntries table s op) (hstep : step table json s op = some s') :
    Holds table json s'.index s'.present := by
  cases op with
  | insertRow row =>
    obtain ⟨index', hinsert, rfl⟩ := Option.map_eq_some_iff.mp hstep
    exact h.insertRow hown.1 hown.2 hinsert
  | removeRow row =>
    obtain rfl := Option.some.inj hstep
    exact h.removeRow hown
  | rebuild rows =>
    obtain ⟨index', hrebuild, rfl⟩ := Option.map_eq_some_iff.mp hstep
    have hempty : Holds table json { s.index with tree := none } [] := Holds.empty s.index
    have hholds := hempty.foldlM hown.1 hown.2 nofun hrebuild
    rw [List.append_nil] at hholds
    exact hholds.perm (List.reverse_perm rows)

/-- A row is in the range of a prefix exactly where it has the prefix. -/
theorem keyFromRow_between {values : List Bytes} (hne : values ≠ [])
    (hlength : values.length ≤ index.columns.length) (hread : ReadAsIs table index values row)
    {parts : List Bytes} (hparts : index.columnParts table row = some parts) :
    between (order table) (makeKey (values.map (normalizeNumericKey table)) ++ [0])
        (makeKey (values.map (normalizeNumericKey table)) ++ [0] ++ [0xFF])
        (makeKey (parts ++ index.pkParts row)) ↔
      hasPrefix table index values row := by
  have hsplit : parts ++ index.pkParts row =
      parts.take values.length ++ (parts.drop values.length ++ index.pkParts row) := by
    rw [← List.append_assoc, List.take_append_drop]
  have hleading : hasPrefix table index values row ↔
      parts.take values.length = values.map (normalizeNumericKey table) := by
    rw [hasPrefix, hparts, Option.map_some, Option.some.injEq]
  have hsought : ∀ v ∈ values.map (normalizeNumericKey table), 0 ∉ v := by
    intro v hv
    obtain ⟨value, hvalue, rfl⟩ := List.mem_map.mp hv
    exact hread.sought value hvalue
  have hcount : (values.map (normalizeNumericKey table)).length =
      (parts.take values.length).length := by
    rw [List.length_map, List.length_take, length_columnParts hparts, Nat.min_eq_left hlength]
  rw [hsplit,
    between_iff hsought (hread.held parts hparts) (fun h => hne (List.map_eq_nil_iff.mp h))
    hcount (hread.behind parts hparts)]
  constructor
  · rintro ⟨halike, _⟩
    exact hleading.mpr (hread.told parts hparts halike).symm
  · intro h
    refine ⟨?_, hread.below h parts hparts⟩
    rw [hleading.mp h]
    exact List.forall₂_same.mpr fun v _ => .inl rfl

/-- What a look-up returns is what the present rows with these values are as JSON. -/
theorem reaches_rowsWithPrefix (columns pkColumns : List Bytes) {s : IndexedRows}
    (h : Transition.Reaches (step table json) (ownEntries table) ⟨⟨columns, pkColumns, none⟩, []⟩ s)
    {values : List Bytes} (hne : values ≠ []) (hlength : values.length ≤ s.index.columns.length)
    (hread : ∀ row ∈ s.present, ReadAsIs table s.index values row) :
    ((s.index.rowsWithPrefix table values).map some).Perm
      ((s.present.filter fun row => hasPrefix table s.index values row).map
        (RowJson.rowToJson json)) := by
  have hholds : Holds table json s.index s.present :=
    h.invariant (P := fun s => Holds table json s.index s.present)
      (fun _ _ _ hs hown hstep => step_holds hs hown hstep) (Holds.empty ⟨columns, pkColumns, none⟩)
  let lo := makeKey (values.map (NumericKey.normalizeNumericKey table)) ++ [0]
  let inRange : Bytes → Bool := between (order table) lo (lo ++ [0xFF])
  have hrange : (s.index.rowsWithPrefix table values).map some =
      ((s.index.tree.collectAllKv.map fun e => (some e.1, some e.2)).filter fun p =>
        p.1.any inRange).map (·.2) := by
    rw [rowsWithPrefix, if_neg (not_or.mpr ⟨hne, Nat.not_lt.mpr hlength⟩), BPlusTree.rangeSearch,
      BPlusTree.rangeEntries_eq hholds.wf, List.filter_map, List.map_map, List.map_map]
    rfl
  have hrows : ((s.present.map fun row => (s.index.keyFromRow table row,
      RowJson.rowToJson json row)).filter fun p => p.1.any inRange).map (·.2) =
      (s.present.filter fun row => hasPrefix table s.index values row).map
        (RowJson.rowToJson json) := by
    rw [List.filter_map, List.map_map]
    refine congrArg _ (List.filter_congr fun row hrow => ?_)
    obtain ⟨e, _, hkey, _⟩ := hholds.exists_entry hrow
    obtain ⟨parts, hparts, _⟩ := Option.map_eq_some_iff.mp hkey.symm
    rw [Function.comp_apply, keyFromRow, hparts, Bool.eq_iff_iff, decide_eq_true_eq]
    exact keyFromRow_between hne hlength (hread row hrow) hparts
  rw [hrange, ← hrows]
  exact (hholds.entries.filter _).map _

/-- Of two rows with `a` and `b` in the column `c` the look-up of `a` finds the first. -/
theorem reaches_rowsWithPrefix_two : ∃ s : IndexedRows,
    s.present = [(∅ : ByteRow).insert [0x63] [0x61], (∅ : ByteRow).insert [0x63] [0x62]] ∧
      ((s.index.rowsWithPrefix UnicodeCollation.asciiTable [[0x61]]).map some).Perm
        [some [0x7B, 0x22, 0x63, 0x22, 0x3A, 0x22, 0x61, 0x22, 0x7D]] := by
  let rows : List ByteRow :=
    [(∅ : ByteRow).insert [0x63] [0x61], (∅ : ByteRow).insert [0x63] [0x62]]
  let index : CompositeIndex := ⟨[[0x63]], [[0x63]], none⟩
  have hrun : (step UnicodeCollation.asciiTable ⟨fun _ => none, fun _ => none⟩ ⟨index, []⟩
      (.rebuild rows)).any fun s =>
        s.index.columns = [[0x63]] ∧ s.index.pkColumns = [[0x63]] ∧ s.present = rows := by
    decide +kernel
  obtain ⟨⟨⟨columns, pkColumns, tree⟩, present⟩, hstep, hs⟩ := (Option.any_eq_true _ _).mp hrun
  obtain ⟨rfl, rfl, rfl⟩ := of_decide_eq_true hs
  have hown : ownEntries UnicodeCollation.asciiTable ⟨index, []⟩ (.rebuild rows) := by
    refine ⟨by decide, List.pairwise_pair.mpr ?_⟩
    rintro ⟨key, hkey, key', hkey', h⟩
    revert key'
    revert key
    decide
  have hread (row : ByteRow) (hrow : row ∈ rows) :
      ReadAsIs UnicodeCollation.asciiTable ⟨[[0x63]], [[0x63]], tree⟩ [[0x61]] row := by
    have h : ReadAsIs UnicodeCollation.asciiTable index [[0x61]] row := by
      rcases List.mem_pair.mp hrow with rfl | rfl
      · refine ⟨by decide, by decide, fun parts hparts _ => ?_, by decide, by decide⟩
        exact congrArg (List.take 1) (Option.some.inj hparts)
      · refine ⟨by decide, by decide, fun parts hparts halike => ?_, by decide, by decide⟩
        obtain rfl : [[0x62]] = parts := Option.some.inj hparts
        have hequal := (List.forall₂_cons.mp halike).1
        rw [KeyOrder.alike] at hequal
        exact absurd hequal (by decide)
    exact ⟨h.sought, h.held, h.told, h.behind, h.below⟩
  have hfound : (rows.filter fun row =>
      hasPrefix UnicodeCollation.asciiTable index [[0x61]] row).map
        (RowJson.rowToJson ⟨fun _ => none, fun _ => none⟩) =
      [some [0x7B, 0x22, 0x63, 0x22, 0x3A, 0x22, 0x61, 0x22, 0x7D]] := by
    decide +kernel
  have hperm := reaches_rowsWithPrefix [[0x63]] [[0x63]] (Transition.Reaches.single _ hown hstep)
    (List.cons_ne_nil [0x61] []) (Nat.le_refl 1) hread
  exact ⟨_, rfl, hperm.trans (.of_eq hfound)⟩

/-- Without a primary key, two rows whose column `c` is `a` and `A` have one entry, and one of them
is not found. -/
theorem rowsWithPrefix_one_of_two :
    (Transition.exec (step UnicodeCollation.asciiTable ⟨fun _ => none, fun _ => none⟩)
      ⟨⟨[[0x63]], [], none⟩, []⟩ [.insertRow ((∅ : ByteRow).insert [0x63] [0x61]),
        .insertRow ((∅ : ByteRow).insert [0x63] [0x41])]).map (fun s =>
          ((s.index.rowsWithPrefix UnicodeCollation.asciiTable [[0x61]]).length,
            (s.present.filter fun row =>
              hasPrefix UnicodeCollation.asciiTable s.index [[0x61]] row).length)) =
      some (1, 2) := by
  decide +kernel

end IndexedRows

end RusqlEngine
