import RusqlEngine.Delete

/-!
# Which rows a DELETE removes

The live rows that a DELETE leaves are those of the table behind the foreign-key actions without the
versions that its last pass takes. The pass takes those of the wanted rows exactly if its path finds
them: a cached position names one row alone, an index names every row, and a condition that is read
again still says the same.
-/

namespace RusqlEngine.DeleteStmt

open Positions IndexSearch CascadeSim

/-- The versions that would go after the foreign-key actions: the live ones of the rows asked for.
-/
def wanted (d : DeleteStmt) (sim : CascadeSim) (asked : Nat → Bool) (j : Nat) : Bool :=
  ((d.cascaded sim d.table)[j]?).any fun v => isVisible v.2 && asked v.1

/-- The row of a position as the foreign-key actions leave it. -/
def version (d : DeleteStmt) (sim : CascadeSim) (table : String) (pos : Nat) : Nat × Row :=
  (pos, if pos ∈ d.rewrites sim table then (d.db.imageOf sim table pos).tag d.cascadeId
    else (d.db.rowsOf table).getD pos ∅)

/-- The rows that the foreign-key actions leave in a table. -/
def spared (d : DeleteStmt) (sim : CascadeSim) (table : String) : List Nat :=
  (List.range (d.db.rowsOf table).length).filter fun pos => (table, pos) ∉ sim.deleted ∧
    (pos ∈ d.rewrites sim table ∨ isVisible ((d.db.rowsOf table).getD pos ∅))

/-- The cache that the answer of the index search is read by. -/
def searchCache (d : DeleteStmt) (condition : Option CondExpr)
    (cache : Option (String → Option Nat)) (rows : List Row) (selfTxnId : Nat) :
    Option (String → Option Nat) :=
  if (d.dmlIndexPositions condition cache rows selfTxnId).cacheGap then
    d.rebuildPkPositions rows cache
  else cache

/-- An entry of the index for the condition names the position. -/
def IndexNames (d : DeleteStmt) (condition : Option CondExpr)
    (cache : Option (String → Option Nat)) (rows : List Row) (selfTxnId : Nat) (pos : Nat) : Prop :=
  ∃ expr cands, condition = some expr ∧ d.gathered expr rows = some cands ∧
    (d.indexSearch condition (d.searchCache condition cache rows selfTxnId) rows).Named cands pos

/-- Of the live versions of a list, those that are asked for are the ones that go. -/
def Finds (versions : List (Nat × Row)) (asked : Nat → Bool) (goes : Nat → Row → Prop) : Prop :=
  ∀ j v, versions[j]? = some v → isVisible v.2 → (asked v.1 ↔ goes j v.2)

/-- The condition of `execDelete_exact_iff` when nothing refers to the table. -/
def FastFinds (d : DeleteStmt) (condition : Option CondExpr) (asked : Nat → Bool) : Prop :=
  let finds := Finds (d.cascaded start d.table) asked
  let holds := fun row => d.matchesCondition condition d.db.tables row = true
  match (d.extractPkEqValue condition).bind d.cachedLive with
  | some pos => finds fun j _ => j = pos
  | none => match d.extractPkBetweenValue condition with
      | some (lo, hi) =>
        if d.rangeKeys lo hi ≠ [] ∧ ∀ pk ∈ d.rangeKeys lo hi, (d.cachedLive pk).isSome then
          finds fun j _ => ∃ pk ∈ d.rangeKeys lo hi, d.cachedLive pk = some j
        else finds fun _ row => holds row
      | none =>
        if (d.healedPositions condition (d.cacheAfterKey condition) d.rows 0).usable then
          finds fun j row => holds row ∧
            d.IndexNames condition (d.cacheAfterKey condition) d.rows 0 j
        else finds fun _ row => holds row

/-- The condition of `execDelete_exact_iff` for the last pass over the table as the foreign-key
actions leave it. -/
def SlowFinds (d : DeleteStmt) (condition : Option CondExpr) (sim : CascadeSim)
    (asked : Nat → Bool) : Prop :=
  let versions := d.cascaded sim d.table
  let rows := versions.map (·.2)
  let marks := Agrees (d.markAnswer condition sim)
    (markStep (endRow d.myId)) [] rows (d.wanted sim asked)
  let named := fun selfTxnId => Finds versions asked fun j row =>
    d.matchesCondition condition d.db.tables row = true ∧
      d.IndexNames condition (d.cascadedCache sim) rows selfTxnId j
  if d.txnActive then
    if (d.passHit condition sim rows d.curTxn).usable then named d.curTxn else marks
  else if d.quiescent then
    if (d.passHit condition sim rows 0).usable ∧
        (d.passHit condition sim rows 0).positions.length ≤ 16 then named 0
    else Agrees (d.compactAnswer condition sim) (compactStep ∅) ([], []) rows
      (d.wanted sim asked)
  else marks

/-- The condition of `execDelete_exact_iff` for a condition and the rows asked for. -/
def FindsItsRows (d : DeleteStmt) (condition : Option CondExpr) (asked : Nat → Bool) : Prop :=
  if d.fastPath condition then d.FastFinds condition asked
  else ∀ sim, d.plan condition = .ok sim → d.SlowFinds condition sim asked

/-- The condition of `execDelete_exact_iff`. -/
def RequestFinds (d : DeleteStmt) (request : Request) : Prop :=
  match request.picking with
  | none => d.FindsItsRows request.condition (d.asked request)
  | some (order, limit) => ∀ condition,
      d.rowsOfLimit request.condition order limit = .ok (some condition) →
      d.FindsItsRows (some condition) (d.asked request)

theorem isVisible_endRow {id : Nat} (h : id ≠ 0)
    (row : Row) : isVisible (endRow id row) = false := by
  simp only [isVisible, endRow, Row.find_set, beq_eq_false_iff_ne, ne_eq]
  exact fun he => h (stdToString_eq_zero_iff.mp he)

variable (d : DeleteStmt)

theorem rewrites_start (table : String) : d.rewrites start table = [] := by
  simp [rewrites, start]

theorem cascaded_start (table : String) :
    d.cascaded start table = (d.db.rowsOf table).mapIdx Prod.mk := by
  have hnone : ∀ v : Nat × Row, (table, v.1) ∉ start.deleted := fun _ h => by
    cases h
  simp only [cascaded, rewrites_start, List.not_mem_nil, if_false, List.map_nil, List.append_nil,
    hnone, decide_not]
  split
  · simp
  · simp

theorem map_snd_cascaded_start (table : String) :
    (d.cascaded start table).map (·.2) = d.db.rowsOf table := by
  rw [cascaded_start]
  apply List.ext_getElem?
  intro i
  simp

theorem mapIdx_eq_map_range (l : List Row) (f : Nat → Row → Nat × Row) :
    l.mapIdx f = (List.range l.length).map fun pos => f pos (l.getD pos ∅) := by
  apply List.ext_getElem?
  intro i
  rw [List.getElem?_mapIdx, List.getElem?_map]
  rcases lt_or_ge i l.length with hi | hi
  · simp [hi]
  · simp [hi]

theorem isVisible_tag (row : Row) (id : Nat) : isVisible (row.tag id) := by
  rw [isVisible, Row.find_tag_xmax]
  rfl

/-- The versions that the foreign-key actions leave, whichever way they remove rows. -/
theorem filter_cascaded (sim : CascadeSim) (table : String) (hid : d.cascadeId ≠ 0) :
    (d.cascaded sim table).filter (fun v => isVisible v.2) =
      ((((d.db.rowsOf table).mapIdx fun pos row =>
          (pos, if pos ∈ d.rewrites sim table then endRow d.cascadeId row else row)) ++
        (d.rewrites sim table).map fun pos =>
          (pos, (d.db.imageOf sim table pos).tag d.cascadeId)).filter
        fun v => isVisible v.2 && decide ((table, v.1) ∉ sim.deleted)) := by
  simp only [cascaded]
  split
  · rw [List.filter_filter]
  · rw [List.filter_map]
    -- a version that is removed is ended, any other stays as it is
    have hkept : ∀ v : Nat × Row, isVisible
        (if (table, v.1) ∈ sim.deleted then endRow d.cascadeId v.2 else v.2) =
          (isVisible v.2 && decide ((table, v.1) ∉ sim.deleted)) := fun v => by
      split
      · rename_i hdeleted
        simp [hdeleted, isVisible_endRow hid]
      · rename_i hdeleted
        simp [hdeleted]
    simp only [Function.comp_def, hkept]
    refine (List.map_congr_left fun v hv => ?_).trans (List.map_id _)
    have hspared := (Bool.and_eq_true_iff.mp (List.mem_filter.mp hv).2).2
    rw [if_neg (of_decide_eq_true hspared)]
    rfl

/-- The rows that the foreign-key actions do not touch. -/
theorem filter_staying (sim : CascadeSim) (table : String) (hid : d.cascadeId ≠ 0) :
    (((d.db.rowsOf table).mapIdx fun pos row =>
      (pos, if pos ∈ d.rewrites sim table then endRow d.cascadeId row else row)).filter
      fun v => isVisible v.2 && decide ((table, v.1) ∉ sim.deleted)) =
    ((d.spared sim table).filter fun pos => decide (pos ∉ d.rewrites sim table)).map
      (d.version sim table) := by
  rw [mapIdx_eq_map_range, List.filter_map, spared, List.filter_filter]
  have hsame : ∀ pos, ((fun v : Nat × Row => isVisible v.2 && decide ((table, v.1) ∉
        sim.deleted)) ∘ fun pos => (pos, if pos ∈ d.rewrites sim table
          then endRow d.cascadeId ((d.db.rowsOf table).getD pos ∅)
          else (d.db.rowsOf table).getD pos ∅)) pos =
      (decide (pos ∉ d.rewrites sim table) && decide ((table, pos) ∉ sim.deleted ∧
        (pos ∈ d.rewrites sim table ∨
          isVisible ((d.db.rowsOf table).getD pos ∅)))) := fun pos => by
    by_cases hrewritten : pos ∈ d.rewrites sim table
    · simp [hrewritten, isVisible_endRow hid]
    · simp [hrewritten, Bool.and_comm]
  rw [List.filter_congr fun pos _ => hsame pos]
  refine List.map_congr_left fun pos hpos => ?_
  have hnot := (Bool.and_eq_true_iff.mp (List.mem_filter.mp hpos).2).1
  simp only [version, if_neg (of_decide_eq_true hnot)]

theorem filter_written (sim : CascadeSim) (table : String) :
    (((d.rewrites sim table).map fun pos =>
      (pos, (d.db.imageOf sim table pos).tag d.cascadeId)).filter
      fun v => isVisible v.2 && decide ((table, v.1) ∉ sim.deleted)) =
    ((d.spared sim table).filter fun pos => decide (pos ∈ d.rewrites sim table)).map
      (d.version sim table) := by
  have hpositions : (d.rewrites sim table).filter (fun pos => decide ((table, pos) ∉ sim.deleted))
      = (d.spared sim table).filter fun pos => decide (pos ∈ d.rewrites sim table) := by
    have hrange : (d.rewrites sim table) = (List.range (d.db.rowsOf table).length).filter
        fun pos => decide (pos ∈ d.rewrites sim table) := by
      conv_lhs => rw [rewrites]
      refine List.filter_congr fun pos hpos => ?_
      rw [Bool.eq_iff_iff, decide_eq_true_eq, rewrites, List.mem_filter]
      exact (and_iff_right hpos).symm
    conv_lhs => rw [hrange]
    rw [spared, List.filter_filter, List.filter_filter]
    refine List.filter_congr fun pos _ => ?_
    by_cases hrewritten : pos ∈ d.rewrites sim table
    · simp [hrewritten]
    · simp [hrewritten]
  rw [List.filter_map, ← hpositions]
  have hlive : ((fun v : Nat × Row => isVisible v.2 && decide ((table, v.1) ∉ sim.deleted)) ∘
      fun pos => (pos, (d.db.imageOf sim table pos).tag d.cascadeId)) =
        fun pos => decide ((table, pos) ∉ sim.deleted) := by
    funext pos
    simp [isVisible_tag]
  rw [hlive]
  refine List.map_congr_left fun pos hpos => ?_
  simp only [version, if_pos (List.mem_filter.mp hpos).1]

/-- The foreign-key actions leave the live rows that they do not remove, each as they have
rewritten it. -/
theorem cascaded_perm_spared (sim : CascadeSim) (table : String) (hid : d.cascadeId ≠ 0) :
    ((d.cascaded sim table).filter fun v => isVisible v.2).Perm
      ((d.spared sim table).map (d.version sim table)) := by
  rw [filter_cascaded d sim table hid, List.filter_append, filter_staying d sim table hid,
    filter_written, ← List.map_append]
  refine List.Perm.map _ (List.perm_append_comm.trans ?_)
  have hsplit := List.filter_append_perm (fun pos => decide (pos ∈ d.rewrites sim table))
    (d.spared sim table)
  simpa only [decide_not] using hsplit

theorem removed_eq_iff_finds {versions : List (Nat × Row)} {asked removed : Nat → Bool}
    {goes : Nat → Row → Prop}
    (h : ∀ j v, versions[j]? = some v → (removed j ↔ isVisible v.2 ∧ goes j v.2)) :
    (∀ j < versions.length, removed j = (versions[j]?).any fun v => isVisible v.2 && asked v.1) ↔
      Finds versions asked goes := by
  constructor
  · intro hall j v hv hlive
    have hremoved := hall j (List.getElem?_eq_some_iff.mp hv).1
    rw [hv, Option.any_some, hlive, Bool.true_and] at hremoved
    rw [← hremoved, h j v hv]
    exact and_iff_right hlive
  · intro hfinds j hj
    have hv := List.getElem?_eq_getElem hj
    rw [hv, Option.any_some, Bool.eq_iff_iff, h j _ hv, Bool.and_eq_true]
    exact and_congr_right fun hlive => (hfinds j _ hv hlive).symm

variable {pos selfTxnId : Nat} {rows : List Row}

section

theorem cachedLive_eq_some {d : DeleteStmt} {pk : String} (h : d.cachedLive pk = some pos) :
    ∃ row, d.rows[pos]? = some row ∧ row.find d.pkColumn = some pk ∧ isVisible row := by
  obtain ⟨p, -, h⟩ := Option.bind_eq_some_iff.mp h
  obtain ⟨row, hrow, h⟩ := Option.bind_eq_some_iff.mp h
  simp only [Option.ite_none_right_eq_some, Option.some.injEq] at h
  obtain ⟨⟨hfind, hlive⟩, rfl⟩ := h
  exact ⟨row, hrow, hfind, hlive⟩

theorem filterMap_cachedLive_nodup {pks : List String} (h : pks.Nodup) :
    (pks.filterMap d.cachedLive).Nodup := by
  refine h.filterMap fun pk pk' pos hpos hpos' => ?_
  obtain ⟨row, hrow, hfind, -⟩ := cachedLive_eq_some hpos
  obtain ⟨row', hrow', hfind', -⟩ := cachedLive_eq_some hpos'
  obtain rfl := Option.some.inj (hrow.symm.trans hrow')
  exact Option.some.inj (hfind.symm.trans hfind')

variable {cache : Option (String → Option Nat)} {condition : Option CondExpr}

theorem dmlIndexPositions_usable {d : DeleteStmt}
    (h : (d.dmlIndexPositions condition cache rows selfTxnId).usable) :
    ∃ expr cands, condition = some expr ∧ d.gathered expr rows = some cands ∧
      d.dmlIndexPositions condition cache rows selfTxnId =
        (d.indexSearch condition cache rows).checkCands cands [] [] := by
  cases condition with
  | none => cases h
  | some expr =>
    simp only [dmlIndexPositions] at h ⊢
    split at h
    · cases h
    · rename_i hfew
      rw [if_neg hfew]
      split at h
      · cases h
      · rename_i hactive
        rw [if_neg hactive]
        split at h
        · cases h
        · rename_i hpk
          rw [if_neg hpk]
          cases hgathered : d.gathered expr rows with
          | none => simp [hgathered] at h
          | some cands => exact ⟨expr, cands, rfl, hgathered, rfl⟩

theorem healedPositions_eq (condition : Option CondExpr) (cache : Option (String → Option Nat))
    (rows : List Row) (selfTxnId : Nat) :
    d.healedPositions condition cache rows selfTxnId =
      d.dmlIndexPositions condition (d.searchCache condition cache rows selfTxnId) rows
        selfTxnId := by
  rw [healedPositions, searchCache]
  split
  · rfl
  · rfl

theorem healedPositions_pairwise {d : DeleteStmt}
    (h : (d.healedPositions condition cache rows selfTxnId).usable) :
    (d.healedPositions condition cache rows selfTxnId).positions.Pairwise (· < ·) := by
  rw [healedPositions_eq] at h ⊢
  obtain ⟨expr, cands, -, -, heq⟩ := dmlIndexPositions_usable h
  rw [heq] at h ⊢
  exact checkCands_pairwise h

/-- The index takes the rows that it names and the condition accepts. -/
theorem mem_healedPositions_iff {d : DeleteStmt}
    (h : (d.healedPositions condition cache rows selfTxnId).usable) {row : Row}
    (hrow : rows[pos]? = some row) :
    pos ∈ (d.healedPositions condition cache rows selfTxnId).positions ↔
      isVisible row ∧ d.matchesCondition condition d.db.tables row ∧
        d.IndexNames condition cache rows selfTxnId pos := by
  rw [healedPositions_eq] at h ⊢
  obtain ⟨expr, cands, hexpr, hgathered, heq⟩ := dmlIndexPositions_usable h
  rw [heq] at h ⊢
  rw [mem_checkCands_iff h, mem_selected, rowAt_iff]
  constructor
  · rintro ⟨⟨row', hrow', haccepts⟩, hnamed⟩
    obtain rfl := Option.some.inj (hrow.symm.trans hrow')
    obtain ⟨hlive, hholds⟩ := Bool.and_eq_true_iff.mp haccepts
    exact ⟨hlive, hholds, expr, cands, hexpr, hgathered, hnamed⟩
  · rintro ⟨hlive, hholds, expr', cands', hexpr', hgathered', hnamed⟩
    obtain rfl := Option.some.inj (hexpr.symm.trans hexpr')
    obtain rfl := Option.some.inj (hgathered.symm.trans hgathered')
    exact ⟨⟨row, hrow, Bool.and_eq_true_iff.mpr ⟨hlive, hholds⟩⟩, hnamed⟩

theorem healedPositions_lt {d : DeleteStmt}
    (h : (d.healedPositions condition cache rows selfTxnId).usable) :
    ∀ pos ∈ (d.healedPositions condition cache rows selfTxnId).positions, pos < rows.length := by
  intro pos hpos
  rw [healedPositions_eq] at h hpos
  obtain ⟨expr, cands, -, -, heq⟩ := dmlIndexPositions_usable h
  rw [heq] at h hpos
  have hselected := ((mem_checkCands_iff h).mp hpos).1
  obtain ⟨row, hrow, -⟩ := rowAt_iff.mp (mem_selected.mp hselected)
  exact (List.getElem?_eq_some_iff.mp hrow).1

def Pass.Leaves (pass : Pass) (rows : List Row) : Prop :=
  (pass.rows.filter isVisible).Perm ((dropAt rows pass.removed).filter isVisible)

theorem leaves_of_takesOut {f : List Row → Nat → List Row} (hf : TakesOut f)
    {positions : List Nat} (hsorted : positions.Pairwise (· < ·))
    (hbound : ∀ pos ∈ positions, pos < rows.length) :
    Pass.Leaves ⟨fun pos => decide (pos ∈ positions), positions.reverse.foldl f rows⟩ rows := by
  have hperm : (positions.reverse.foldl f rows).Perm
      (dropAt rows fun i => decide (i ∈ positions.reverse)) :=
    foldl_takesOut_perm hf (List.pairwise_reverse.mpr hsorted) fun pos hpos =>
      hbound pos (List.mem_reverse.mp hpos)
  simp only [List.mem_reverse] at hperm
  exact hperm.filter _

/-- The positions that the fast path takes, with the rows that go. -/
structure FastPositions (d : DeleteStmt) (positions : List Nat) (goes : Nat → Row → Prop) :
    Prop where
  sorted : positions.Pairwise (· < ·)
  bound : ∀ pos ∈ positions, pos < d.rows.length
  mem : ∀ pos row, d.rows[pos]? = some row →
    (pos ∈ positions ↔ isVisible row ∧ goes pos row)

theorem FastPositions.spec {d : DeleteStmt} {positions : List Nat} {goes : Nat → Row → Prop}
    (h : FastPositions d positions goes) (hremoval : d.fastRemoval condition = .positions positions)
    (asked : Nat → Bool) :
    (d.fastPass condition).Leaves d.rows ∧
      ((∀ j < (d.cascaded start d.table).length,
          (d.fastPass condition).removed j = d.wanted start asked j) ↔
        Finds (d.cascaded start d.table) asked goes) := by
  simp only [fastPass, hremoval]
  refine ⟨leaves_of_takesOut swapRemove_takesOut h.sorted h.bound, ?_⟩
  refine removed_eq_iff_finds fun j v hv => ?_
  rw [cascaded_start, List.getElem?_mapIdx, Option.map_eq_some_iff] at hv
  obtain ⟨row, hrow, rfl⟩ := hv
  rw [decide_eq_true_eq]
  exact h.mem j row hrow

theorem scan_spec {d : DeleteStmt} (hremoval : d.fastRemoval condition = .scan)
    (asked : Nat → Bool) :
    (d.fastPass condition).Leaves d.rows ∧
      ((∀ j < (d.cascaded start d.table).length,
          (d.fastPass condition).removed j = d.wanted start asked j) ↔
        Finds (d.cascaded start d.table) asked fun _ row =>
          d.matchesCondition condition d.db.tables row = true) := by
  simp only [fastPass, hremoval]
  constructor
  · simp only [Pass.Leaves, dropAt_eq_filter]
    exact List.Perm.refl _
  · refine removed_eq_iff_finds fun j v hv => ?_
    rw [cascaded_start, List.getElem?_mapIdx, Option.map_eq_some_iff] at hv
    obtain ⟨row, hrow, rfl⟩ := hv
    have hrow' : d.rows[j]? = some row := hrow
    simp only [hrow', Option.any_some, Bool.and_eq_true]

theorem cachedKey_fastPositions {d : DeleteStmt} {pk : String} (h : d.cachedLive pk = some pos) :
    FastPositions d [pos] fun j _ => j = pos := by
  obtain ⟨row, hrow, -, hlive⟩ := cachedLive_eq_some h
  refine ⟨List.pairwise_singleton _ _, fun p hp => ?_, fun p row' hrow' => ?_⟩
  · rw [List.mem_singleton.mp hp]
    exact (List.getElem?_eq_some_iff.mp hrow).1
  · rw [List.mem_singleton]
    refine ⟨fun hp => ⟨?_, hp⟩, fun hp => hp.2⟩
    subst hp
    obtain rfl := Option.some.inj (hrow.symm.trans hrow')
    exact hlive

theorem cachedRange_fastPositions {pks : List String} (h : pks.Nodup) :
    FastPositions d ((pks.filterMap d.cachedLive).insertionSort (· ≤ ·))
      fun j _ => ∃ pk ∈ pks, d.cachedLive pk = some j := by
  have hmem : ∀ pos, pos ∈ (pks.filterMap d.cachedLive).insertionSort (· ≤ ·) ↔
      ∃ pk ∈ pks, d.cachedLive pk = some pos := fun pos => by
    rw [List.mem_insertionSort, List.mem_filterMap]
  have hnodup := (List.perm_insertionSort (· ≤ ·) (pks.filterMap d.cachedLive)).nodup_iff.mpr
    (d.filterMap_cachedLive_nodup h)
  refine ⟨?_, fun pos hpos => ?_, fun pos row hrow => ?_⟩
  · exact ((List.pairwise_insertionSort (· ≤ ·) _).and hnodup).imp fun h =>
      lt_of_le_of_ne h.1 h.2
  · obtain ⟨pk, -, hpk⟩ := (hmem pos).mp hpos
    obtain ⟨row, hrow, -⟩ := cachedLive_eq_some hpk
    exact (List.getElem?_eq_some_iff.mp hrow).1
  · rw [hmem]
    refine ⟨fun hgoes => ⟨?_, hgoes⟩, fun hgoes => hgoes.2⟩
    obtain ⟨pk, -, hpk⟩ := hgoes
    obtain ⟨row', hrow', -, hlive⟩ := cachedLive_eq_some hpk
    obtain rfl := Option.some.inj (hrow.symm.trans hrow')
    exact hlive

theorem indexed_fastPositions {d : DeleteStmt}
    (h : (d.healedPositions condition cache d.rows selfTxnId).usable) :
    FastPositions d (d.healedPositions condition cache d.rows selfTxnId).positions
      fun j row => d.matchesCondition condition d.db.tables row = true ∧
        d.IndexNames condition cache d.rows selfTxnId j :=
  ⟨healedPositions_pairwise h, healedPositions_lt h, fun _ _ hrow =>
    mem_healedPositions_iff h hrow⟩

/-- The fast path leaves the live rows it does not take, and takes the rows that are asked for
exactly if it finds them. -/
theorem fastPass_spec (condition : Option CondExpr) (asked : Nat → Bool) :
    (d.fastPass condition).Leaves d.rows ∧
      ((∀ j < (d.cascaded start d.table).length,
          (d.fastPass condition).removed j = d.wanted start asked j) ↔
        d.FastFinds condition asked) := by
  simp only [FastFinds]
  cases hkey : (d.extractPkEqValue condition).bind d.cachedLive with
  | some pos =>
    obtain ⟨pk, -, hpos⟩ := Option.bind_eq_some_iff.mp hkey
    exact (cachedKey_fastPositions hpos).spec (by simp only [fastRemoval, hkey]) asked
  | none =>
    cases hrange : d.extractPkBetweenValue condition with
    | some range =>
      obtain ⟨lo, hi⟩ := range
      dsimp only
      split
      · rename_i hcomplete
        have hfound := hcomplete.imp_right List.filterMap_length_eq_length.mpr
        exact (d.cachedRange_fastPositions (d.rangeKeys_nodup lo hi)).spec
          (by simp only [fastRemoval, hkey, hrange, if_pos hfound]) asked
      · rename_i hpartial
        have hgap := fun hfound => hpartial
          (And.imp_right List.filterMap_length_eq_length.mp hfound)
        exact scan_spec (by simp only [fastRemoval, hkey, hrange, if_neg hgap]) asked
    | none =>
      dsimp only
      split
      · rename_i husable
        exact (indexed_fastPositions husable).spec
          (by simp only [fastRemoval, hkey, hrange, husable, if_true]) asked
      · rename_i husable
        exact scan_spec (by simp only [fastRemoval, hkey, hrange, if_neg husable]) asked

end

section

variable {d : DeleteStmt} {condition : Option CondExpr} {sim : CascadeSim}

theorem passHit_usable (h : (d.passHit condition sim rows selfTxnId).usable) :
    d.passHit condition sim rows selfTxnId =
      d.healedPositions condition (d.cascadedCache sim) rows selfTxnId := by
  rw [passHit] at h ⊢
  split at h
  · cases h
  · rename_i hsubquery
    rw [if_neg hsubquery]

theorem mem_passHit_iff (h : (d.passHit condition sim rows selfTxnId).usable) {row : Row}
    (hrow : rows[pos]? = some row) :
    pos ∈ (d.passHit condition sim rows selfTxnId).positions ↔
      isVisible row ∧ d.matchesCondition condition d.db.tables row ∧
        d.IndexNames condition (d.cascadedCache sim) rows selfTxnId pos := by
  have heq := passHit_usable h
  rw [heq] at h ⊢
  exact mem_healedPositions_iff h hrow

theorem getElem?_map_snd {versions : List (Nat × Row)} {j : Nat} {v : Nat × Row}
    (h : versions[j]? = some v) : (versions.map (·.2))[j]? = some v.2 := by
  rw [List.getElem?_map, h]
  rfl

/-- The last pass leaves the live versions it does not take, and takes the rows that are asked for
exactly if it finds them. -/
theorem slowPass_spec (d : DeleteStmt) (condition : Option CondExpr) (sim : CascadeSim)
    (asked : Nat → Bool) (hid : d.myId ≠ 0) :
    (d.slowPass condition sim).Leaves ((d.cascaded sim d.table).map (·.2)) ∧
      ((∀ j < (d.cascaded sim d.table).length,
          (d.slowPass condition sim).removed j = d.wanted sim asked j) ↔
        d.SlowFinds condition sim asked) := by
  have hlength : ((d.cascaded sim d.table).map (·.2)).length = (d.cascaded sim d.table).length :=
    List.length_map _
  have hmarks : Pass.Leaves ⟨decided (d.markAnswer condition sim)
        (markStep (endRow d.myId)) [] ((d.cascaded sim d.table).map (·.2)),
      finish (d.markAnswer condition sim) (markStep (endRow d.myId)) []
        ((d.cascaded sim d.table).map (·.2))⟩ ((d.cascaded sim d.table).map (·.2)) := by
    rw [Pass.Leaves, filter_finish_markStep (isVisible_endRow hid)]
    exact List.Perm.refl _
  simp only [slowPass, SlowFinds]
  by_cases htxn : d.txnActive = true
  · rw [if_pos htxn, if_pos htxn]
    by_cases husable : (d.passHit condition sim ((d.cascaded sim d.table).map (·.2))
        d.curTxn).usable = true
    · rw [if_pos husable, if_pos husable]
      refine ⟨?_, removed_eq_iff_finds fun j v hv => ?_⟩
      · rw [Pass.Leaves, filter_mapIdx_mark (isVisible_endRow hid)]
      · have hrow := getElem?_map_snd hv
        simp only [hrow, Option.any_some, Bool.and_eq_true, decide_eq_true_eq,
          mem_passHit_iff husable hrow]
        tauto
    · rw [if_neg husable, if_neg husable, ← decided_eq_iff_agrees, hlength]
      exact ⟨hmarks, Iff.rfl⟩
  · rw [if_neg htxn, if_neg htxn]
    by_cases hquiescent : d.quiescent = true
    · rw [if_pos hquiescent, if_pos hquiescent]
      by_cases husable : (d.passHit condition sim ((d.cascaded sim d.table).map (·.2)) 0).usable =
          true ∧ (d.passHit condition sim ((d.cascaded sim d.table).map (·.2)) 0).positions.length
            ≤ 16
      · rw [if_pos husable, if_pos husable]
        refine ⟨?_, removed_eq_iff_finds fun j v hv => ?_⟩
        · have heq := passHit_usable husable.1
          have hhealed := heq ▸ husable.1
          rw [heq]
          exact leaves_of_takesOut eraseIdx_takesOut (healedPositions_pairwise hhealed)
            (healedPositions_lt hhealed)
        · rw [decide_eq_true_eq, mem_passHit_iff husable.1 (getElem?_map_snd hv)]
      · rw [if_neg husable, if_neg husable, ← decided_eq_iff_agrees, hlength]
        refine ⟨?_, Iff.rfl⟩
        rw [Pass.Leaves, finish_compactStep]
        exact List.Perm.refl _
    · rw [if_neg hquiescent, if_neg hquiescent, ← decided_eq_iff_agrees, hlength]
      exact ⟨hmarks, Iff.rfl⟩

end

section

variable {d : DeleteStmt} {condition : Option CondExpr} {out : Outcome}

theorem cascadedTables_getD (d : DeleteStmt) (sim : CascadeSim) (table : String) :
    (d.cascadedTables sim table).getD [] = (d.cascaded sim table).map (·.2) := by
  rw [cascadedTables]
  cases htable : d.db.tables table with
  | some rows => rfl
  | none =>
    have hrows : d.db.rowsOf table = [] := by
      rw [CascadeDb.rowsOf, htable]
      rfl
    simp [cascaded, rewrites, hrows]

/-- What is left of the tables, and when the rows asked for are the ones that went. -/
structure Deleted (d : DeleteStmt) (out : Outcome) (asked : Nat → Bool) (finds : Prop) :
    Prop where
  others : ∀ table, table ≠ d.table →
    (out.tables table).getD [] = (d.cascaded out.sim table).map (·.2)
  left : (((out.tables d.table).getD []).filter isVisible).Perm
    ((dropAt ((d.cascaded out.sim d.table).map (·.2)) out.removed).filter isVisible)
  exact_iff : (∀ j < (d.cascaded out.sim d.table).length,
    out.removed j = d.wanted out.sim asked j) ↔ finds

theorem execDeleteInner_deleted (hid : d.myId ≠ 0) (asked : Nat → Bool)
    (h : d.execDeleteInner condition = .ok out) :
    d.Deleted out asked (d.FindsItsRows condition asked) := by
  rw [execDeleteInner] at h
  split at h
  · cases h
  · rw [FindsItsRows]
    split at h
    · rename_i hfast
      obtain ⟨hleaves, hexact⟩ := d.fastPass_spec condition asked
      obtain rfl := Except.ok.inj h
      rw [if_pos hfast]
      refine ⟨fun table hne => ?_, ?_, hexact⟩
      · rw [map_snd_cascaded_start]
        simp only [if_neg hne]
        rfl
      · simp only [if_true, map_snd_cascaded_start]
        exact hleaves
    · rename_i hslow
      cases hplan : d.plan condition with
      | error message => rw [hplan] at h; cases h
      | ok sim =>
        rw [hplan] at h
        obtain rfl := Except.ok.inj h
        obtain ⟨hleaves, hexact⟩ := d.slowPass_spec condition sim asked hid
        rw [if_neg hslow]
        refine ⟨fun table hne => ?_, ?_, hexact.trans ⟨fun hfinds sim' hsim' => ?_,
          fun hfinds => hfinds sim rfl⟩⟩
        · simp only [midPass, if_neg hne, cascadedTables_getD]
        · simp only [midPass, if_true]
          exact hleaves
        · obtain rfl := Except.ok.inj hsim'
          exact hfinds

theorem nothingDone_deleted (d : DeleteStmt) {asked : Nat → Bool} (hnone : ∀ pos, asked pos = false)
    {finds : Prop} (hfinds : finds) : d.Deleted d.nothingDone asked finds := by
  refine ⟨fun table _ => ?_, ?_, iff_of_true (fun j _ => ?_) hfinds⟩
  · exact (d.map_snd_cascaded_start table).symm
  · have hall : dropAt (d.db.rowsOf d.table) (fun _ => false) = d.db.rowsOf d.table :=
      dropAt_eq_self fun _ _ => rfl
    simp only [nothingDone, map_snd_cascaded_start, hall]
    exact List.Perm.refl _
  · simp [nothingDone, wanted, hnone]

theorem foldl_or_ne_none (l : List CondExpr) (picked : CondExpr) :
    l.foldl (fun picked one => match picked with
      | none => some one
      | some picked => some (.or picked one)) (some picked) ≠ none := by
  induction l generalizing picked with
  | nil => simp
  | cons one l ih => exact ih _

theorem rowsOfLimit_eq_none {order : Row → Row → Ordering} {limit : Option Nat}
    (h : d.rowsOfLimit condition order limit = .ok none) :
    d.pickedRows condition order limit = [] := by
  rw [rowsOfLimit] at h
  split at h
  · cases h
  · rename_i hkey
    obtain ⟨column, columns, hcolumns⟩ := List.exists_cons_of_ne_nil hkey
    rw [hcolumns] at h
    have hnone := Except.ok.inj h
    cases hpicked : d.pickedRows condition order limit with
    | nil => rfl
    | cons pos picked =>
      rw [hpicked] at hnone
      exact absurd hnone (foldl_or_ne_none _ _)

/-- The live rows that a DELETE leaves are those that the foreign-key actions leave, without
the versions that it takes, and it takes those of the rows that it is asked to remove exactly
if the path that it goes finds them. -/
theorem execDelete_exact_iff (d : DeleteStmt) (request : Request) (out : Outcome)
    (hcascade : d.cascadeId ≠ 0) (hid : d.myId ≠ 0) (h : d.execDelete request = .ok out) :
    (∀ table, ((d.cascaded out.sim table).filter fun v => isVisible v.2).Perm
      ((d.spared out.sim table).map (d.version out.sim table))) ∧
    (∀ table, table ≠ d.table →
      (out.tables table).getD [] = (d.cascaded out.sim table).map (·.2)) ∧
    (((out.tables d.table).getD []).filter isVisible).Perm
      ((Positions.dropAt ((d.cascaded out.sim d.table).map (·.2)) out.removed).filter
        isVisible) ∧
    ((∀ j < (d.cascaded out.sim d.table).length,
        out.removed j = d.wanted out.sim (d.asked request) j) ↔ d.RequestFinds request) := by
  refine ⟨fun table => d.cascaded_perm_spared out.sim table hcascade, ?_⟩
  have hdeleted : d.Deleted out (d.asked request) (d.RequestFinds request) := by
    rw [execDelete] at h
    cases hpicking : request.picking with
    | none =>
      simp only [hpicking] at h
      simp only [RequestFinds, hpicking]
      exact execDeleteInner_deleted hid _ h
    | some picking =>
      obtain ⟨order, limit⟩ := picking
      simp only [hpicking] at h
      simp only [RequestFinds, hpicking]
      cases hrows : d.rowsOfLimit request.condition order limit with
      | error message => rw [hrows] at h; cases h
      | ok picked =>
        rw [hrows] at h
        cases picked with
        | none =>
          obtain rfl := Except.ok.inj h
          refine d.nothingDone_deleted (fun pos => ?_) fun condition hcondition => ?_
          · simp [asked, hpicking, rowsOfLimit_eq_none hrows]
          · cases hcondition
        | some condition =>
          have hinner := execDeleteInner_deleted hid (d.asked request) h
          refine ⟨hinner.others, hinner.left, hinner.exact_iff.trans
            ⟨fun hfinds condition' hcondition' => ?_, fun hfinds => hfinds condition rfl⟩⟩
          obtain rfl := Option.some.inj (Except.ok.inj hcondition')
          exact hfinds
  exact ⟨hdeleted.others, hdeleted.left, hdeleted.exact_iff⟩

end

def readsDigits (text : String) : Bool :=
  text ≠ "" && text.toList.all Char.isDigit

/-- Comparing a cell with a literal that is written as the cell is. -/
def sameText (condition : CondLeaf) (row : Row) : Tri :=
  match condition with
  | .eq column value _ => if row.find column = some value then .true else .false
  | _ => .false

/-- A DELETE outside a transaction, nobody else being there, on a table of whole numbers. -/
def aloneDelete (db : CascadeDb) (table : String) (schema : TableSchema)
    (rowPkPos : Option (String → Option Nat)) (subquery3 : Nat → Tables → Row → Tri) :
    DeleteStmt where
  db := db
  table := table
  schema := schema
  typeOf := fun _ => ⟨.number, true⟩
  parsesNumber := readsDigits
  rowPkPos := rowPkPos
  rangeKeys := fun _ _ => []
  rangeKeys_nodup := fun _ _ => List.nodup_nil
  gathered := fun _ _ => none
  located := id
  activeTxnIds := ∅
  curTxn := 0
  cascadeId := 7
  myId := 8
  minRows := 64
  leaf3 := sameText
  subquery3 := subquery3

/-- `t(a, b, PRIMARY KEY (a, b))` with the rows (1, 1) and (1, 2); the cache has the position of
the row that was inserted last. -/
def firstColumnDelete : DeleteStmt :=
  aloneDelete
    ⟨asciiCollation, [("t", [⟨"a", [], none⟩, ⟨"b", [], none⟩])], fun table =>
      if table = "t" then some [(Row.ofCells [("a", "1"), ("b", "1")]).tag 3,
        (Row.ofCells [("a", "1"), ("b", "2")]).tag 3] else none, fun _ _ _ => false⟩
    "t" ⟨[⟨"a", true, false⟩, ⟨"b", true, false⟩], ["a", "b"], []⟩
    (some fun key => if key = "1" then some 1 else none) fun _ _ _ => .false

/-- `DELETE FROM t WHERE a = 1`. -/
def whereFirstColumn : Request :=
  ⟨some (.leaf (.eq "a" "1" false)), none⟩

/-- `EXISTS (SELECT 1 FROM child WHERE child.pid = parent.id)`. -/
def hasChild (_ : Nat) (tables : Tables) (row : Row) : Tri :=
  if ((tables "child").getD []).any fun child =>
    isVisible child && child.find "pid" == row.find "id"
  then .true else .false

/-- `parent(id PRIMARY KEY)` and `child(pid REFERENCES parent(id) ON DELETE CASCADE)` with one
row each. -/
def existsDelete : DeleteStmt :=
  aloneDelete
    ⟨asciiCollation, [("child", [⟨"pid", [⟨"parent", "id", .cascade, .restrict⟩], none⟩]),
      ("parent", [⟨"id", [], none⟩])], fun table =>
      if table = "child" then some [(Row.ofCells [("pid", "1")]).tag 3]
      else if table = "parent" then some [(Row.ofCells [("id", "1")]).tag 3]
      else none, fun _ _ _ => false⟩
    "parent" ⟨[⟨"id", true, false⟩], ["id"], []⟩
    (some fun key => if key = "1" then some 0 else none) hasChild

/-- `DELETE FROM parent WHERE EXISTS (SELECT 1 FROM child WHERE child.pid = parent.id)`. -/
def whereHasChild : Request :=
  ⟨some (.leaf (.other 0 true)), none⟩

/-- The first DELETE selects both rows and leaves one of them; the second removes the child and
leaves the parent that it selects, which has no child any more when it is read again. -/
theorem execDelete_leaves_selected :
    ((∀ pos < 2, firstColumnDelete.asked whereFirstColumn pos) ∧
      (firstColumnDelete.execDelete whereFirstColumn).toOption.map
        (fun out => (out.tables "t").getD []) =
          some [(Row.ofCells [("a", "1"), ("b", "1")]).tag 3]) ∧
    (existsDelete.asked whereHasChild 0 ∧
      (existsDelete.execDelete whereHasChild).toOption.map
        (fun out => ((out.tables "parent").getD [], (out.tables "child").getD [])) =
          some ([(Row.ofCells [("id", "1")]).tag 3], [])) := by
  decide

theorem execDelete_exact_iff_firstColumn :
    ∃ out, firstColumnDelete.execDelete whereFirstColumn = .ok out ∧
      ((∀ j < (firstColumnDelete.cascaded out.sim "t").length,
        out.removed j = firstColumnDelete.wanted out.sim
          (firstColumnDelete.asked whereFirstColumn) j) ↔
        firstColumnDelete.RequestFinds whereFirstColumn) := by
  have hok : (firstColumnDelete.execDelete whereFirstColumn).isOk := by decide
  cases h : firstColumnDelete.execDelete whereFirstColumn with
  | error message => rw [h] at hok; cases hok
  | ok out =>
    exact ⟨out, rfl, (firstColumnDelete.execDelete_exact_iff whereFirstColumn out (by decide)
      (by decide) h).2.2.2⟩

end RusqlEngine.DeleteStmt
