import RusqlEngine.Select

/-!
# SELECT against the order of its clauses

`Pipeline` says which answers a SELECT may have: the visible rows where WHERE is true, grouped or
aggregated, with HAVING applied; DISTINCT drops rows that show the same, the rest is ordered with
ties in any order, and OFFSET and LIMIT cut it. Without GROUP BY the engine cuts first and then
drops repeated rows, which is `Pipeline true`.
-/

namespace RusqlEngine

open RowList

variable {A C X : Type}

/-- A row of the answer: what ORDER BY and DISTINCT read, and the cells that are shown. -/
structure ShownRow where
  row : Row
  cells : List String

namespace SelectTable

variable (ev : SelectEval A C X) (t : SelectTable) (q : SelectQuery A C X)

def wanted : List Row :=
  t.rows.filter (t.rowOk ev q)

def wantedArguments : List Row :=
  (t.wanted ev q).map (q.withArguments ev)

def shown (row : Row) : ShownRow :=
  ⟨row, q.formatRow ev t.columnNames row⟩

/-- Grouping or aggregating the rows `base` and applying HAVING makes these rows. -/
def Stages (base : List Row) (made : List ShownRow) : Prop :=
  match q.groupBy with
  | some items => ∃ groups, Splits (SelectQuery.groupKey ev items) groups base ∧
      made = (((groups.map fun group => q.makeGroupRow ev items group.1 group.2).filter
        (q.keepsGroup ev)).map fun group => t.shown ev q group.1)
  | none =>
    if q.hasAgg ev then
      made = if q.keepsAggregates ev base then
        [⟨q.aggregateRow ev base, q.aggregateCells ev base⟩] else []
    else made = (base.filter fun row => q.having.all (ev.evalCondexpr row)).map (t.shown ev q)

def compareShown (a b : ShownRow) : Ordering :=
  compareRows ev.cmpKey ev.getCol q.orderBy a.row b.row

/-- `kept` is what DISTINCT, if it is there, leaves of `all`. -/
def Distinct (kept all : List ShownRow) : Prop :=
  if q.distinct then DropsRepeats (fun s => q.distinctKey ev s.row) kept all
  else kept = all

/-- The answers of a statement. With `windowFirst` OFFSET and LIMIT cut before DISTINCT
drops. -/
def Pipeline (windowFirst : Bool) (out : List (List String)) : Prop :=
  ∃ base made, base.Perm (t.wantedArguments ev q) ∧ t.Stages ev q base made ∧
    if windowFirst then
      ∃ ordered kept, ordered.Perm made ∧ InOrder (compareShown ev q) ordered ∧
        Distinct ev q kept (window q ordered) ∧ out = kept.map ShownRow.cells
    else
      ∃ kept ordered, Distinct ev q kept made ∧ ordered.Perm kept ∧
        InOrder (compareShown ev q) ordered ∧
        out = (window q ordered).map ShownRow.cells

/-- The indexes are in step with the rows, and the plan fits the condition. -/
structure InStep : Prop where
  /-- What an index hands out are the visible rows of a range that holds every row where
  WHERE is true. -/
  found : ∀ found, t.found = some found → ∃ reads : Row → Bool,
    (found.filter fun r => isVisibleForRead r t.readCtx).Perm
      ((t.rows.filter fun r => isVisibleForRead r t.readCtx).filter reads) ∧
    ∀ r ∈ t.rows, t.rowOk ev q r → reads r
  /-- The tree of a column hands its rows out in the order of the column. -/
  ordered : ∀ found ord, t.found = some found → ord ∈ q.orderBy →
    rangeColumn t.access = some ord.column →
    InOrder (compareRows ev.cmpKey ev.getCol [{ ord with ascending := true }])
      (found.filter (t.rowOk ev q))
  /-- A covering path is taken for a condition on its column alone. -/
  covering : ∀ col, t.coveringCol q = some col →
    (∀ r r' : Row, r.find col = r'.find col → q.holds ev r = q.holds ev r') ∧
    ∀ found, t.found = some found → ∀ r ∈ found, (r.find col).isSome
  /-- The candidate search finds the positions of visible rows, all where WHERE is true among
  them. -/
  hit : ∀ positions, t.indexHit = some positions → positions.Nodup ∧
    (∀ pos ∈ positions, ∃ r, t.rows[pos]? = some r ∧ isVisibleForRead r t.readCtx) ∧
    ∀ pos r, t.rows[pos]? = some r → t.rowOk ev q r → pos ∈ positions

/-- No other transaction is open, and a snapshot that is not frozen is current: it is above
the stamps of all rows, and its transactions in progress are open. -/
structure Alone : Prop where
  others : t.othersActive = false
  inProgress : t.frozen = false → t.readCtx.inProgress ⊆ t.activeTxnIds
  stamped : t.frozen = false → ∀ found, t.found = some found → ∀ r ∈ found,
    ∃ n, n ≤ t.readCtx.cutoff ∧ n ≤ uint64Max ∧ Stamped n r

/-- ORDER BY has a weak order to sort by, on the rows and on the groups. -/
structure Sortable : Prop where
  rows : SortsWell ev.toValueReader ev.getCol q.orderBy (t.wantedArguments ev q)
  groups : ∀ items base, q.groupBy = some items → base.Perm (t.wantedArguments ev q) →
    SortsWell ev.toValueReader ev.getCol q.orderBy (groupRows ev q items base)

def BoundArguments : Prop :=
  q.groupBy = none → q.hasAgg ev = false → q.havingAggRefs ev = [] → q.arguments = []

/-- The statement keeps off three places where a clause is passed over: an index path with GROUP BY
or HAVING, OFFSET, LIMIT or DISTINCT under aggregates, and HAVING that reads aggregates on plain
rows. -/
structure KeepsClauses : Prop where
  indexPaths : q.groupBy.isSome ∨ q.having.isSome →
    t.indexPath ev q = none ∧ t.topKPath ev q = none
  aggregates : q.hasAgg ev → q.groupBy = none →
    q.limit = none ∧ q.offset = none ∧ q.distinct = false
  having : q.havingAggRefs ev ≠ [] → q.groupBy.isSome ∨ q.hasAgg ev

variable {ev t q} {found rows : List Row}

theorem Alone.isVisibleForRead_eq (h : t.Alone) (hfresh : t.frozen = false)
    (hfound : t.found = some found) {r : Row} (hr : r ∈ found) :
    isVisibleForRead r t.readCtx = isVisible r := by
  obtain ⟨n, hcut, hmax, hst⟩ := h.stamped hfresh found hfound r hr
  have hempty : t.activeTxnIds.erase t.readCtx.selfTxnId = ∅ := by
    simpa [othersActive] using h.others
  have hself : ∀ id ∈ t.readCtx.inProgress, id = t.readCtx.selfTxnId := by
    intro id hid
    by_contra hne
    have hmem : id ∈ t.activeTxnIds.erase t.readCtx.selfTxnId :=
      Finset.mem_erase.mpr ⟨hne, h.inProgress hfresh hid⟩
    simp [hempty] at hmem
  have hcommitted : ∀ id, id < n ∨ id = 0 → id ≠ t.readCtx.selfTxnId →
      committedAsOf t.readCtx id := by
    intro id hid hne
    rw [← Bool.not_eq_false, committedAsOf_eq_false_iff]
    rintro ⟨h0, hlate | hopen⟩
    · omega
    · exact hne (hself id hopen)
  have hbelow : ∀ col, StampCell n (r.find col) → parseTxnId r col < n ∨ parseTxnId r col = 0 := by
    intro col hcell
    by_cases hn : 0 < n
    · exact .inl (parseTxnId_lt hn hmax hcell)
    · right
      cases hc : r.find col with
      | none => simp [parseTxnId, hc]
      | some text =>
        obtain ⟨id, hid, -⟩ := hcell text hc
        omega
  rw [Bool.eq_iff_iff, isVisibleForRead_iff_seen hmax hst, isVisible_iff_xmax_eq_zero hmax hst]
  constructor
  · rintro ⟨-, h0 | ⟨hne, hopen⟩⟩
    · exact h0
    · rw [hcommitted r.xmax (hbelow "_xmax" hst.xmaxCell) hne] at hopen
      cases hopen
  · intro h0
    refine ⟨?_, .inl h0⟩
    by_cases hx : r.xmin = t.readCtx.selfTxnId
    · exact .inl hx
    · exact .inr (hcommitted r.xmin (hbelow "_xmin" hst.xminCell) hx)

theorem filter_rowOk (rows : List Row) :
    rows.filter (t.rowOk ev q) =
      (rows.filter fun r => isVisibleForRead r t.readCtx).filter (q.holds ev) := by
  rw [List.filter_filter]
  exact List.filter_congr fun r _ => Bool.and_comm ..

theorem InStep.filter_found_perm (h : InStep ev t q) (hfound : t.found = some found) :
    (found.filter (t.rowOk ev q)).Perm (t.wanted ev q) := by
  obtain ⟨reads, hperm, hreads⟩ := h.found found hfound
  have hall : ((t.rows.filter fun r => isVisibleForRead r t.readCtx).filter reads).filter
      (q.holds ev) = t.wanted ev q := by
    rw [wanted, filter_rowOk, List.filter_filter]
    apply List.filter_congr
    intro r hr
    obtain ⟨hmem, hvis⟩ := List.mem_filter.mp hr
    cases hholds : q.holds ev r with
    | false => rfl
    | true =>
      rw [Bool.true_and]
      exact hreads r hmem (by simp [rowOk, hvis, hholds])
  rw [filter_rowOk, ← hall]
  exact hperm.filter _

theorem inPrimaryKeyOrder_perm (rows : List Row) : (t.inPrimaryKeyOrder ev rows).Perm rows := by
  unfold inPrimaryKeyOrder
  split
  · exact List.Perm.refl _
  · exact stableSort_perm _ _

theorem filterMap_getElem?_range (rows : List Row) :
    (List.range rows.length).filterMap (fun pos => rows[pos]?) = rows := by
  induction rows with
  | nil => rfl
  | cons r rows ih =>
    rw [List.length_cons, List.range_succ_eq_map, List.filterMap_cons, List.filterMap_map]
    simpa using ih

theorem InStep.positions_perm (h : InStep ev t q) {positions : List Nat}
    (hhit : t.indexHit = some positions) :
    ((positions.filterMap fun pos => t.rows[pos]?).filter (q.holds ev)).Perm (t.wanted ev q) := by
  obtain ⟨hnodup, hvis, hall⟩ := h.hit positions hhit
  let ok : Nat → Bool := fun pos => t.rows[pos]?.any (t.rowOk ev q)
  have hread : ∀ l : List Nat, (l.filter ok).filterMap (fun pos => t.rows[pos]?) =
      (l.filterMap fun pos => t.rows[pos]?).filter (t.rowOk ev q) := by
    intro l
    induction l with
    | nil => rfl
    | cons pos l ih =>
      cases hpos : t.rows[pos]? with
      | none => simp [ok, hpos, ih]
      | some r =>
        by_cases hr : t.rowOk ev q r = true <;> simp [ok, hpos, hr, ih]
  have hpositions : (positions.filterMap fun pos => t.rows[pos]?).filter (q.holds ev) =
      (positions.filter ok).filterMap fun pos => t.rows[pos]? := by
    rw [hread, filter_rowOk]
    congr 1
    refine (List.filter_eq_self.mpr ?_).symm
    intro r hr
    obtain ⟨pos, hpos, hget⟩ := List.mem_filterMap.mp hr
    obtain ⟨r', hget', hr'⟩ := hvis pos hpos
    rw [hget] at hget'
    cases hget'
    exact hr'
  have hrows : t.wanted ev q =
      ((List.range t.rows.length).filter ok).filterMap fun pos => t.rows[pos]? := by
    rw [hread, wanted]
    congr 1
    exact (filterMap_getElem?_range t.rows).symm
  have hperm : (positions.filter ok).Perm ((List.range t.rows.length).filter ok) := by
    refine (List.perm_ext_iff_of_nodup (hnodup.filter _) (List.nodup_range.filter _)).mpr ?_
    intro pos
    simp only [List.mem_filter, List.mem_range]
    constructor
    · rintro ⟨hpos, hok⟩
      obtain ⟨r, hget, -⟩ := hvis pos hpos
      exact ⟨(List.getElem?_eq_some_iff.mp hget).1, hok⟩
    · rintro ⟨-, hok⟩
      obtain ⟨r, hget, hr⟩ := Option.any_eq_true .. |>.mp hok
      exact ⟨hall pos r hget hr, hok⟩
  rw [hpositions, hrows]
  exact hperm.filterMap _

theorem InStep.visibleRows_perm (h : InStep ev t q) :
    ((t.visibleRows ev q).filter (q.holds ev)).Perm (t.wanted ev q) := by
  unfold visibleRows
  dsimp only
  split
  · rename_i positions hsome
    have hhit : t.indexHit = some positions := by
      split at hsome
      · exact hsome
      · cases hsome
    exact ((inPrimaryKeyOrder_perm _).filter _).trans (h.positions_perm hhit)
  · rw [wanted, filter_rowOk]
    exact (((inPrimaryKeyOrder_perm _).filter _).filter _)

theorem InStep.scannedRows_perm (h : InStep ev t q) :
    (t.scannedRows ev q).Perm (t.wantedArguments ev q) := by
  have hmap : (((t.visibleRows ev q).filter (q.holds ev)).map (q.withArguments ev)).Perm
      (t.wantedArguments ev q) := h.visibleRows_perm.map _
  unfold scannedRows
  dsimp only
  split
  · exact (stableSort_perm _ _).trans hmap
  · exact hmap

theorem InStep.scannedRows_inOrder (h : InStep ev t q) (hsort : Sortable ev t q) :
    InOrder (compareRows ev.cmpKey ev.getCol q.orderBy) (t.scannedRows ev q) := by
  have hmap : (((t.visibleRows ev q).filter (q.holds ev)).map (q.withArguments ev)).Perm
      (t.wantedArguments ev q) := h.visibleRows_perm.map _
  have hwell := hsort.rows.subset hmap.subset
  unfold scannedRows
  dsimp only
  split
  · have hcells := hwell.consistent.congr fun a ha b hb => hwell.compareRows_eq ha hb
    refine (inOrder_stableSort hcells).congr ?_
    intro a ha b hb
    rw [hwell.compareRows_eq ((stableSort_perm _ _).subset ha)
      ((stableSort_perm _ _).subset hb)]
  · rename_i hguard
    -- without ORDER BY all rows tie, and a single row is in any order
    by_cases hempty : q.orderBy = []
    · rw [hempty]
      exact List.pairwise_of_forall fun _ _ => Ordering.noConfusion
    · have hshort : (((t.visibleRows ev q).filter (q.holds ev)).map
          (q.withArguments ev)).length ≤ 1 := by
        simpa [hempty] using hguard
      match hl : ((t.visibleRows ev q).filter (q.holds ev)).map (q.withArguments ev), hshort with
      | [], _ => exact List.Pairwise.nil
      | [r], _ => exact List.pairwise_singleton _ r

theorem inOrder_map_shown {cells : Row → List String}
    (h : InOrder (compareRows ev.cmpKey ev.getCol q.orderBy) rows) :
    InOrder (compareShown ev q) (rows.map fun r => ⟨r, cells r⟩) :=
  List.Pairwise.map _ (fun _ _ hab => hab) h

theorem find_ofCells_singleton (col v : String) : (Row.ofCells [(col, v)]).find col = some v := by
  simp [Row.ofCells, Row.find]

theorem formatRow_eq_of_onlyCol (ev : SelectEval A C X) (columnNames : List String)
    {col v : String} {r r' : Row} (honly : ∀ item ∈ q.columns, item.onlyCol col)
    (hr : r.find col = some v) (hr' : r'.find col = some v) :
    q.formatRow ev columnNames r = q.formatRow ev columnNames r' := by
  have hall : q.columns.any (·.isAll) = false := by
    rw [List.any_eq_false]
    intro item hitem
    have := honly item hitem
    cases item <;> simp_all [SelectItem.onlyCol, SelectItem.isAll]
  have hget : ev.getCol r col = ev.getCol r' col := by
    rw [ev.getCol_of_find r col v hr, ev.getCol_of_find r' col v hr']
  simp only [SelectQuery.formatRow, hall]
  apply List.map_congr_left
  intro item hitem
  have hitemCol := honly item hitem
  cases item with
  | column name cls | columnAlias name shownAs cls =>
    obtain rfl : name = col := by simpa [SelectItem.onlyCol] using hitemCol
    simp [SelectItem.shownValue, hget]
  | _ => simp [SelectItem.onlyCol] at hitemCol

/-- The rows of a covering path show what the rows of the table would show. -/
theorem coveringRows_shown {col : String} (honly : ∀ item ∈ q.columns, item.onlyCol col)
    (hreads : ∀ r r' : Row, r.find col = r'.find col → q.holds ev r = q.holds ev r')
    (hcell : ∀ r ∈ found, (r.find col).isSome)
    (hvis : ∀ r ∈ found, isVisibleForRead r t.readCtx = isVisible r) :
    (coveringRows ev q col found).map (q.formatRow ev t.columnNames) =
      (found.filter (t.rowOk ev q)).map (q.formatRow ev t.columnNames) := by
  induction found with
  | nil => rfl
  | cons r found ih =>
    have ih := ih (fun r hr => hcell r (.tail _ hr))
      fun r hr => hvis r (.tail _ hr)
    obtain ⟨v, hv⟩ := Option.isSome_iff_exists.mp (hcell r List.mem_cons_self)
    have hone := find_ofCells_singleton col v
    have hholds := hreads _ r (hone.trans hv.symm)
    have hseen := hvis r List.mem_cons_self
    have hrow := formatRow_eq_of_onlyCol ev t.columnNames honly hone hv
    simp only [coveringRows] at ih ⊢
    cases hlive : isVisible r <;> cases hq : q.holds ev r <;> simp_all [rowOk]

theorem InStep.indexRows_shown (h : InStep ev t q) (halone : t.Alone) (hfresh : t.frozen = false)
    (hfound : t.found = some found) :
    (t.indexRows ev q found).map (q.formatRow ev t.columnNames) =
      (found.filter (t.rowOk ev q)).map (q.formatRow ev t.columnNames) := by
  unfold indexRows
  cases hcol : t.coveringCol q with
  | none => rfl
  | some col =>
    obtain ⟨hreads, hcell⟩ := h.covering col hcol
    have honly : ∀ item ∈ q.columns, item.onlyCol col := by
      unfold coveringCol at hcol
      split at hcol
      · split at hcol
        all_goals first
          | cases hcol
          | (split at hcol
             · rename_i hall
               cases hcol
               exact List.all_eq_true.mp hall
             · cases hcol)
      · cases hcol
    exact coveringRows_shown honly hreads (hcell found hfound)
      fun r hr => halone.isVisibleForRead_eq hfresh hfound hr

theorem InStep.indexPath_shown (h : InStep ev t q) (halone : t.Alone)
    (hpath : t.indexPath ev q = some rows) :
    q.hasAgg ev = false ∧ q.limit = none ∧ q.offset = none ∧ q.orderBy = [] ∧
      q.distinct = false ∧ ∃ base : List Row, base.Perm (t.wanted ev q) ∧
        rows.map (q.formatRow ev t.columnNames) = base.map (q.formatRow ev t.columnNames) := by
  unfold indexPath at hpath
  split at hpath
  · rename_i hguard
    simp only [useFastIndexPaths, Bool.and_eq_true, Bool.not_eq_true', Option.isNone_iff_eq_none,
      List.isEmpty_iff] at hguard
    obtain ⟨⟨⟨⟨⟨hfresh, hagg⟩, hlimit⟩, hoffset⟩, horder⟩, hdistinct⟩ := hguard
    refine ⟨hagg, hlimit, hoffset, horder, hdistinct, ?_⟩
    split at hpath
    · cases hpath
    · cases hpath
    · rename_i found _ hfound
      dsimp only at hpath
      split at hpath
      · cases hpath
        exact ⟨_, h.filter_found_perm hfound, rfl⟩
      · cases hpath
    · rename_i found hfound _ _
      rw [if_neg (by simp [halone.others])] at hpath
      cases hpath
      exact ⟨_, h.filter_found_perm hfound, h.indexRows_shown halone hfresh hfound⟩
  · cases hpath

theorem InStep.topKPath_shown (h : InStep ev t q) (hpath : t.topKPath ev q = some rows) :
    q.hasAgg ev = false ∧ q.distinct = false ∧ q.offset = none ∧
      ∃ lim, q.limit = some lim ∧ ∃ base : List Row, base.Perm (t.wanted ev q) ∧
        InOrder (compareRows ev.cmpKey ev.getCol q.orderBy) base ∧
        rows = base.take lim := by
  unfold topKPath at hpath
  split at hpath
  · rename_i hguard
    simp only [Bool.and_eq_true, Bool.not_eq_true', Option.isNone_iff_eq_none] at hguard
    obtain ⟨⟨⟨-, hagg⟩, hdistinct⟩, hoffset⟩ := hguard
    refine ⟨hagg, hdistinct, hoffset, ?_⟩
    split at hpath
    · rename_i ord lim found horder hlimit hfound
      split at hpath
      · rename_i hcol
        cases hpath
        refine ⟨lim, hlimit, _, ?_, ?_, rfl⟩
        · split
          · exact h.filter_found_perm hfound
          · exact (List.reverse_perm _).trans (h.filter_found_perm hfound)
        · have hasc := h.ordered found ord hfound (by simp [horder]) hcol
          rw [horder]
          split
          · rename_i hup
            obtain ⟨column, ascending, cls⟩ := ord
            cases hup
            exact hasc
          · rename_i hdown
            have hswap : ∀ a b, compareRows ev.cmpKey ev.getCol [{ ord with ascending := true }]
                b a =
                (compareRows ev.cmpKey ev.getCol [{ ord with ascending := true }] a b).swap := by
              intro a b
              simp only [compareRows, if_true, orderValue, Ordering.then_eq]
              exact ev.cmpKey_swap ord.cls _ _
            refine (hasc.reverse hswap).congr ?_
            intro a _ b _
            simp [compareRows, hdown, orderValue]
      · cases hpath
    · cases hpath
  · cases hpath

theorem sortGroups_spec (h : SortsWell ev.toValueReader ev.getCol q.orderBy rows) :
    (sortGroups ev q rows).Perm rows ∧
      InOrder (compareRows ev.cmpKey ev.getCol q.orderBy) (sortGroups ev q rows) := by
  unfold sortGroups
  cases hpar : ev.parallelSort q.orderBy rows with
  | none => exact ⟨stableSort_perm _ _, inOrder_stableSort h.consistent⟩
  | some sorted =>
    obtain ⟨hperm, hordered⟩ := ev.parallelSort_spec _ _ _ hpar
    exact ⟨hperm, hordered h.consistent⟩

theorem dropsRepeats_map_shown {cells : Row → List String} {kept all : List Row}
    (h : DropsRepeats (q.distinctKey ev) kept all) :
    DropsRepeats (fun s : ShownRow => q.distinctKey ev s.row)
      (kept.map fun r => ⟨r, cells r⟩) (all.map fun r => ⟨r, cells r⟩) where
  sublist := h.sublist.map _
  nodup := by
    rw [List.map_map]
    exact h.nodup
  covers := by
    intro s hs
    obtain ⟨r, hr, rfl⟩ := List.mem_map.mp hs
    obtain ⟨r', hr', hkey⟩ := h.covers r hr
    exact ⟨_, List.mem_map_of_mem hr', hkey⟩

theorem window_map {α β : Type} (f : α → β) (l : List α) :
    window q (l.map f) = (window q l).map f := by
  unfold window
  cases q.offset <;> cases q.limit <;> simp

/-- An answer of the rows, without GROUP BY and aggregates: an arrangement in order, cut, without
what repeats. -/
theorem pipeline_of_plain {base ordered kept : List Row} (hgroup : q.groupBy = none)
    (hagg : q.hasAgg ev = false) (hbase : base.Perm (t.wantedArguments ev q))
    (hperm : ordered.Perm (base.filter fun row => q.having.all (ev.evalCondexpr row)))
    (hordered : InOrder (compareRows ev.cmpKey ev.getCol q.orderBy) ordered)
    (hkept : if q.distinct then DropsRepeats (q.distinctKey ev) kept (window q ordered)
      else kept = window q ordered) :
    t.Pipeline ev q true (kept.map (q.formatRow ev t.columnNames)) := by
  refine ⟨base, (base.filter fun row => q.having.all (ev.evalCondexpr row)).map (t.shown ev q),
    hbase, ?_, ordered.map (t.shown ev q), kept.map (t.shown ev q), hperm.map _,
    inOrder_map_shown hordered, ?_, ?_⟩
  · simp [Stages, hgroup, hagg]
  · unfold Distinct
    rw [window_map]
    split at hkept
    · rename_i hd
      rw [if_pos hd]
      exact dropsRepeats_map_shown hkept
    · rename_i hd
      rw [if_neg hd, hkept]
  · rw [List.map_map]
    rfl

theorem InStep.groupedPath_pipeline (h : InStep ev t q) (hsort : Sortable ev t q)
    {items : List (String × ValueClass)} (hgroup : q.groupBy = some items) :
    t.Pipeline ev q false (t.groupedPath ev q items (t.scannedRows ev q)) := by
  have hbase := h.scannedRows_perm
  have hwell := hsort.groups items _ hgroup hbase
  set made := groupRows ev q items (t.scannedRows ev q) with hmade
  set kept := if q.distinct then dedupe ev q made else made with hkept
  have hdrops : q.distinct → DropsRepeats (q.distinctKey ev) kept made := by
    intro hd
    rw [hkept, if_pos hd]
    exact firstOfEach_dropsRepeats _ made
  have hsub : kept ⊆ made := by
    rw [hkept]
    split
    · exact (firstOfEach_sublist _ _ _).subset
    · exact List.Subset.refl _
  set sorted := if q.orderBy.isEmpty then kept else sortGroups ev q kept with hsorted
  have hspec : sorted.Perm kept ∧
      InOrder (compareRows ev.cmpKey ev.getCol q.orderBy) sorted := by
    rw [hsorted]
    split
    · rename_i hempty
      rw [List.isEmpty_iff.mp hempty]
      exact ⟨List.Perm.refl _, List.pairwise_of_forall fun _ _ => Ordering.noConfusion⟩
    · exact sortGroups_spec (hwell.subset hsub)
  refine ⟨t.scannedRows ev q, made.map (t.shown ev q), hbase, ?_, kept.map (t.shown ev q),
    sorted.map (t.shown ev q), ?_, hspec.1.map _, inOrder_map_shown hspec.2, ?_⟩
  · rw [Stages, hgroup]
    refine ⟨_, groupBy_splits _, ?_⟩
    rw [hmade, groupRows, List.map_map]
    rfl
  · unfold Distinct
    split
    · rename_i hd
      exact dropsRepeats_map_shown (hdrops hd)
    · rename_i hd
      rw [hkept, if_neg hd]
  · rw [window_map, List.map_map]
    rfl

theorem InStep.aggregates_pipeline (h : InStep ev t q) (hgroup : q.groupBy = none)
    (hagg : q.hasAgg ev) (hlimit : q.limit = none) (hoffset : q.offset = none)
    (hdistinct : q.distinct = false) :
    t.Pipeline ev q true
      (if q.keepsAggregates ev (t.scannedRows ev q) then [q.aggregateCells ev (t.scannedRows ev q)]
        else []) := by
  set base := t.scannedRows ev q with hbase
  let made : List ShownRow := if q.keepsAggregates ev base then
    [⟨q.aggregateRow ev base, q.aggregateCells ev base⟩] else []
  have hwindow : window q made = made := by
    simp [window, hlimit, hoffset]
  refine ⟨base, made, h.scannedRows_perm, ?_, made, made, List.Perm.refl _, ?_, ?_, ?_⟩
  · rw [Stages, hgroup]
    exact (if_pos hagg).mpr rfl
  · simp only [made]
    split
    · exact List.pairwise_singleton _ _
    · exact List.Pairwise.nil
  · rw [hwindow]
    simp [Distinct, hdistinct]
  · simp only [made]
    split <;> rfl

theorem wantedArguments_eq_wanted (h : q.arguments = []) :
    t.wantedArguments ev q = t.wanted ev q := by
  have hself : q.withArguments ev = id := by
    funext row
    simp [SelectQuery.withArguments, h]
  rw [wantedArguments, hself, List.map_id]

theorem KeepsClauses.plain (h : KeepsClauses ev t q) (hbound : BoundArguments ev q)
    (hagg : q.hasAgg ev = false) (hpath : t.indexPath ev q ≠ none ∨ t.topKPath ev q ≠ none) :
    q.groupBy = none ∧ q.having = none ∧ q.arguments = [] := by
  have hnone : ¬ (q.groupBy.isSome ∨ q.having.isSome) := by
    intro hany
    obtain ⟨hindex, htop⟩ := h.indexPaths hany
    rcases hpath with hne | hne
    · exact hne hindex
    · exact hne htop
  rw [not_or, Bool.not_eq_true, Bool.not_eq_true, Option.isSome_eq_false_iff,
    Option.isSome_eq_false_iff, Option.isNone_iff_eq_none, Option.isNone_iff_eq_none] at hnone
  exact ⟨hnone.1, hnone.2, hbound hnone.1 hagg (by simp [SelectQuery.havingAggRefs, hnone.2])⟩

theorem execSelect_pipeline_isNone (hstep : InStep ev t q) (halone : t.Alone)
    (hsort : Sortable ev t q) (hbound : BoundArguments ev q) (hkeeps : KeepsClauses ev t q) :
    t.Pipeline ev q q.groupBy.isNone (t.execSelect ev q) := by
  unfold execSelect
  split
  · rename_i rows hpath
    obtain ⟨hagg, hlimit, hoffset, horder, hdistinct, base, hbase, hshown⟩ :=
      hstep.indexPath_shown halone hpath
    obtain ⟨hgroup, hhaving, harguments⟩ := hkeeps.plain hbound hagg (.inl (by simp [hpath]))
    rw [← wantedArguments_eq_wanted harguments] at hbase
    have hall : base.Perm (base.filter fun row => q.having.all (ev.evalCondexpr row)) := by
      simp [hhaving]
    rw [hgroup, hshown]
    refine pipeline_of_plain hgroup hagg hbase hall ?_ ?_
    · rw [horder]
      exact List.pairwise_of_forall fun _ _ => Ordering.noConfusion
    · simp [hdistinct, window, hlimit, hoffset]
  · rename_i rows hpath
    obtain ⟨hagg, hdistinct, hoffset, lim, hlimit, base, hbase, hordered, rfl⟩ :=
      hstep.topKPath_shown hpath
    obtain ⟨hgroup, hhaving, harguments⟩ := hkeeps.plain hbound hagg (.inr (by simp [hpath]))
    rw [← wantedArguments_eq_wanted harguments] at hbase
    have hall : base.Perm (base.filter fun row => q.having.all (ev.evalCondexpr row)) := by
      simp [hhaving]
    rw [hgroup]
    refine pipeline_of_plain hgroup hagg hbase hall hordered ?_
    simp [hdistinct, window, hlimit, hoffset]
  · rename_i items _ _ hgroup
    rw [hgroup]
    exact hstep.groupedPath_pipeline hsort hgroup
  · rename_i hgroup
    rw [hgroup]
    dsimp only
    split
    · rename_i hagg
      obtain ⟨hlimit, hoffset, hdistinct⟩ := hkeeps.aggregates hagg hgroup
      have hrows : plainRows ev q (t.scannedRows ev q) = t.scannedRows ev q := by
        simp [plainRows, hagg, hdistinct, window, hlimit, hoffset]
      rw [hrows]
      exact hstep.aggregates_pipeline hgroup hagg hlimit hoffset hdistinct
    · rename_i hagg
      have hagg : q.hasAgg ev = false := by simpa using hagg
      have hordered := (hstep.scannedRows_inOrder hsort).sublist
        (List.filter_sublist (p := fun row => q.having.all (ev.evalCondexpr row)))
      refine pipeline_of_plain hgroup hagg hstep.scannedRows_perm (List.Perm.refl _) hordered ?_
      simp only [plainRows, hagg]
      split
      · exact firstOfEach_dropsRepeats _ _
      · rfl

theorem pipeline_of_not_distinct {out : List (List String)} (h : t.Pipeline ev q true out)
    (hdistinct : q.distinct = false) : t.Pipeline ev q false out := by
  obtain ⟨base, made, hbase, hmade, ordered, kept, hperm, hordered, hkept, rfl⟩ := h
  obtain rfl : kept = window q ordered := by simpa [Distinct, hdistinct] using hkept
  exact ⟨base, made, hbase, hmade, made, ordered, by simp [Distinct, hdistinct], hperm, hordered,
    rfl⟩

/-- Without OFFSET and LIMIT the rows may as well be arranged in order before DISTINCT drops
what repeats. -/
theorem pipeline_of_not_cut {out : List (List String)} (h : t.Pipeline ev q true out)
    (hgroup : q.groupBy = none) (hagg : q.hasAgg ev = false) (hlimit : q.limit = none)
    (hoffset : q.offset = none) : t.Pipeline ev q false out := by
  obtain ⟨base, made, hbase, hmade, ordered, kept, hperm, hordered, hkept, rfl⟩ := h
  have hwindow : ∀ l : List ShownRow, window q l = l := by
    intro l
    simp [window, hlimit, hoffset]
  rw [hwindow] at hkept
  let keeps : Row → Bool := fun row => q.having.all (ev.evalCondexpr row)
  obtain rfl : made = (base.filter keeps).map (t.shown ev q) := by
    simpa [Stages, hgroup, hagg] using hmade
  have hrows : (ordered.map ShownRow.row).Perm (base.filter keeps) := by
    have := hperm.map ShownRow.row
    rwa [List.map_map, show ShownRow.row ∘ t.shown ev q = id from rfl, List.map_id] at this
  have hshown : (ordered.map ShownRow.row).map (t.shown ev q) = ordered := by
    rw [List.map_map]
    refine (List.map_congr_left ?_).trans (List.map_id _)
    intro s hs
    obtain ⟨r, -, rfl⟩ := List.mem_map.mp (hperm.subset hs)
    rfl
  -- the rows in order first, then those HAVING drops
  refine ⟨ordered.map ShownRow.row ++ base.filter fun r => !keeps r, ordered, ?_, ?_, kept, kept,
    hkept, List.Perm.refl _, ?_, ?_⟩
  · exact ((hrows.append_right _).trans (List.filter_append_perm keeps base)).trans hbase
  · have hkeeps : (ordered.map ShownRow.row).filter keeps = ordered.map ShownRow.row := by
      refine List.filter_eq_self.mpr fun r hr => ?_
      exact (List.mem_filter.mp (hrows.subset hr)).2
    have hdropped : (base.filter fun r => !keeps r).filter keeps = [] := by
      simp [List.filter_filter]
    simp only [Stages, hgroup, hagg]
    rw [List.filter_append, hkeeps, hdropped, List.append_nil, hshown]
    rfl
  · unfold Distinct at hkept
    split at hkept
    · exact hordered.sublist hkept.sublist
    · exact hkept ▸ hordered
  · rw [hwindow]

/-- SELECT answers with the rows of its clauses in their order; only where DISTINCT meets OFFSET
or LIMIT without GROUP BY does it cut before DISTINCT drops what repeats. -/
theorem execSelect_pipeline (ev : SelectEval A C X) (t : SelectTable) (q : SelectQuery A C X)
    (hstep : InStep ev t q) (halone : t.Alone) (hsort : Sortable ev t q)
    (hbound : BoundArguments ev q) (hkeeps : KeepsClauses ev t q) :
    t.Pipeline ev q q.groupBy.isNone (t.execSelect ev q) ∧
      ((q.distinct → q.groupBy = none → q.limit = none ∧ q.offset = none) →
        t.Pipeline ev q false (t.execSelect ev q)) := by
  have hpipe := execSelect_pipeline_isNone hstep halone hsort hbound hkeeps
  refine ⟨hpipe, fun hcut => ?_⟩
  cases hgroup : q.groupBy with
  | some items =>
    rw [hgroup] at hpipe
    exact hpipe
  | none =>
    rw [hgroup] at hpipe
    cases hdistinct : q.distinct with
    | false => exact pipeline_of_not_distinct hpipe hdistinct
    | true =>
      have hagg : q.hasAgg ev = false := by
        rw [← Bool.not_eq_true]
        intro hagg
        rw [(hkeeps.aggregates hagg hgroup).2.2] at hdistinct
        cases hdistinct
      obtain ⟨hlimit, hoffset⟩ := hcut hdistinct hgroup
      exact pipeline_of_not_cut hpipe hgroup hagg hlimit hoffset

end SelectTable

/-- Texts by their characters, numbers by their digits. -/
def plainReader : ValueReader where
  weights text := text.toList.map Char.toNat
  parseNumber text := (readDigits text.toList).map fun n => (n : ℚ)
  textToNumber text := ((readDigits text.toList).getD 0 : ℚ)
  double n := n

/-- Statements without expressions: the only conditions are `column >= number`, the only
aggregate is COUNT. -/
def plainEval : SelectEval Unit (String × String) Empty where
  toValueReader := plainReader
  coll := asciiCollation
  normalizeNumericKey := id
  getCol := Row.find
  getCol_of_find _ _ _ h := h
  evalCondexpr row c := (row.find c.1).any fun v =>
    v != executorNull && plainReader.compareNumbers v c.2 != .lt
  evalArith _ e := e.elim
  applyScalarFunc _ _ _ := executorNull
  shownExprValue e _ := e.elim
  shownCell _ v := v
  joinedCells _ := ""
  aggLabel _ col := "COUNT(" ++ col ++ ")"
  computeAggregates rows items := items.foldl (fun out item =>
    match item with
    | .agg _ col => out.set ("COUNT(" ++ col ++ ")") (toString rows.length)
    | .aggAlias _ _ name => out.set name (toString rows.length)
    | _ => out) ∅
  computeAggFromKey _ rows := toString rows.length
  exprAggRefs e := e.elim
  condAggRefs _ := []
  textAggRefs _ := []
  arithColumns e := e.elim
  condColumns c := [c.1]
  hasAnyValue e := e.elim
  mentionsColumn e := e.elim
  classOfExpr e := e.elim
  lieInKeyOrder _ _ := true
  parallelSort _ _ := none
  parallelSort_spec _ _ _ h := by cases h

def valueRow (v : String) : Row :=
  Row.ofCells [("v", v), ("_xmin", "1"), ("_xmax", "0")]

/-- A table of these values without a key; `access` is the plan, `found` what its index hands
out. -/
def valueTable (values : List String) (access : AccessPath) (found : Option (List Row)) :
    SelectTable where
  rows := values.map valueRow
  columnNames := ["v"]
  primaryKey := []
  partitioned := false
  readCtx := ⟨0, 5, ∅⟩
  frozen := false
  activeTxnIds := ∅
  access := access
  isCovering := false
  found := found
  indexHit := none

/-- `SELECT v FROM t`. -/
def selectValues : SelectQuery Unit (String × String) Empty where
  columns := [.column "v" .number]
  distinct := false
  condition := none
  orderBy := []
  groupBy := none
  having := none
  limit := none
  offset := none
  arguments := []

/-- `SELECT v FROM t WHERE v >= 2 ORDER BY v DESC LIMIT 2`, through the index on `v`. -/
def topTwo : SelectQuery Unit (String × String) Empty :=
  { selectValues with
    condition := some ("v", "2"), orderBy := [⟨"v", false, .number⟩], limit := some 2 }

def indexedTable : SelectTable :=
  valueTable ["7", "1", "10", "3"] (.secondaryRange "v")
    (some [valueRow "3", valueRow "7", valueRow "10"])

theorem stamped_valueRow (v : String) : Stamped 2 (valueRow v) where
  xminCell text h := by
    have hfind : (valueRow v).find "_xmin" = some (stdToString 1) := rfl
    rw [hfind] at h
    cases h
    exact ⟨1, by decide, rfl⟩
  xmaxCell text h := by
    have hfind : (valueRow v).find "_xmax" = some (stdToString 0) := rfl
    rw [hfind] at h
    cases h
    exact ⟨0, by decide, rfl⟩

theorem valueTable_alone (values : List String) (access : AccessPath) (found : List String) :
    (valueTable values access (some (found.map valueRow))).Alone where
  others := rfl
  inProgress _ := Finset.empty_subset _
  stamped := by
    intro _ l hl r hr
    cases hl
    obtain ⟨v, -, rfl⟩ := List.mem_map.mp hr
    exact ⟨2, (by decide : 2 ≤ 5), by decide, stamped_valueRow v⟩

theorem indexedTable_inStep : indexedTable.InStep plainEval topTwo where
  found := by
    intro found hfound
    cases hfound
    refine ⟨fun r => topTwo.holds plainEval r, by decide, ?_⟩
    intro r _ hok
    simp only [SelectTable.rowOk, Bool.and_eq_true] at hok
    exact hok.2
  ordered := by
    intro found ord hfound hord hcol
    cases hfound
    obtain rfl := List.mem_singleton.mp hord
    unfold InOrder
    decide
  covering := by
    intro col hcol
    cases hcol
  hit := by
    intro positions hhit
    cases hhit

theorem indexedTable_sortable : indexedTable.Sortable plainEval topTwo where
  rows := ⟨by decide, by decide⟩
  groups := by
    intro items base hgroup
    cases hgroup

/-- The index path of a statement with ORDER BY and LIMIT. -/
theorem execSelect_pipeline_topTwo :
    indexedTable.execSelect plainEval topTwo = [["10"], ["7"]] ∧
      indexedTable.Pipeline plainEval topTwo true (indexedTable.execSelect plainEval topTwo) := by
  refine ⟨by decide, ?_⟩
  refine (SelectTable.execSelect_pipeline plainEval indexedTable topTwo indexedTable_inStep
    (valueTable_alone _ _ ["3", "7", "10"]) indexedTable_sortable (fun _ _ _ => rfl)
    ⟨?_, ?_, ?_⟩).1
  · rintro (h | h) <;> cases h
  · intro h
    cases h
  · intro h
    exact absurd rfl h

/-- `SELECT DISTINCT v FROM t LIMIT 2`. -/
def distinctTwo : SelectQuery Unit (String × String) Empty :=
  { selectValues with distinct := true, limit := some 2 }

def repeatingTable : SelectTable :=
  valueTable ["7", "7", "8"] .seqScan none

theorem two_le_length_of_dropsRepeats {α κ : Type} {key : α → κ} {kept all : List α} {a b : α}
    (h : DropsRepeats key kept all) (ha : a ∈ all) (hb : b ∈ all) (hne : key a ≠ key b) :
    2 ≤ kept.length := by
  obtain ⟨x, hx, hxa⟩ := h.covers a ha
  obtain ⟨y, hy, hyb⟩ := h.covers b hb
  match kept, hx, hy with
  | [z], hx, hy =>
    rw [List.mem_singleton] at hx hy
    subst hx hy
    exact absurd (hxa.symm.trans hyb) hne
  | _ :: _ :: _, _, _ => simp

/-- The clauses in their order give two rows of a table with two values; the engine cuts to two
rows first and shows one. -/
theorem execSelect_not_pipeline :
    repeatingTable.InStep plainEval distinctTwo ∧ repeatingTable.Alone ∧
      repeatingTable.Sortable plainEval distinctTwo ∧
      repeatingTable.execSelect plainEval distinctTwo = [["7"]] ∧
      ¬ repeatingTable.Pipeline plainEval distinctTwo false
        (repeatingTable.execSelect plainEval distinctTwo) := by
  have hanswer : repeatingTable.execSelect plainEval distinctTwo = [["7"]] := by decide
  refine ⟨⟨?_, ?_, ?_, ?_⟩, ⟨rfl, fun _ => Finset.empty_subset _, ?_⟩, ⟨⟨?_, ?_⟩, ?_⟩, hanswer, ?_⟩
  · intro found hfound
    cases hfound
  · intro found ord hfound
    cases hfound
  · intro col hcol
    cases hcol
  · intro positions hhit
    cases hhit
  · intro _ found hfound
    cases hfound
  · intro ord hord
    cases hord
  · intro ord hord
    cases hord
  · intro items base hgroup
    cases hgroup
  · rw [hanswer]
    rintro ⟨base, made, hbase, rfl, kept, ordered, hkept, hperm, -, hout⟩
    have hwanted : repeatingTable.wantedArguments plainEval distinctTwo =
        ["7", "7", "8"].map valueRow := by decide
    have hmem : ∀ v ∈ ["7", "7", "8"], repeatingTable.shown plainEval distinctTwo (valueRow v) ∈
        (base.filter fun row => distinctTwo.having.all (plainEval.evalCondexpr row)).map
          (repeatingTable.shown plainEval distinctTwo) := by
      intro v hv
      refine List.mem_map_of_mem (List.mem_filter.mpr ⟨hbase.mem_iff.mpr ?_, rfl⟩)
      rw [hwanted]
      exact List.mem_map_of_mem hv
    have htwo := two_le_length_of_dropsRepeats hkept (hmem "7" (by simp)) (hmem "8" (by simp))
      (by decide)
    have hlength := congrArg List.length hout
    rw [← hperm.length_eq] at htwo
    simp [SelectTable.window, distinctTwo, selectValues] at hlength
    omega

end RusqlEngine
