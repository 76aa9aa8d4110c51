import RusqlEngine.IndexSearch

/-!
# The rows that an UPDATE rewrites

`exec_update_inner` finds its rows by the position cache of a primary key, an index, a scan, or, for
a condition with a subquery, the match keys of the rows that satisfy it. What the condition says of
a row and what an index yields are parameters; the statement runs alone, so both phases see the same
rows.
-/

namespace RusqlEngine

/-- The primary-key columns of a table, else `id`. -/
def pkCols (schema : TableSchema) : List String :=
  match (schema.columns.filter (·.primaryKey)).map (·.name) with
  | [] => ["id"]
  | cols => cols

/-- The lambda `match_key`: the texts of the key columns, joined with NUL bytes. -/
def matchKey (cols : List String) (row : Row) : String :=
  String.intercalate "\x00" (cols.map fun c => (row.find c).getD "")

/-- An UPDATE on one table: the contents, the position cache, the transactions that are
open, and the condition as the statement evaluates it. -/
structure UpdateStmt where
  schema : TableSchema
  rows : List Row
  rowPkPos : Option (String → Option Nat)
  activeTxnIds : Finset Nat
  curTxn : Nat
  myId : Nat
  peekNextId : Nat
  minRows : Nat
  whereTrue : Row → Bool
  hasCondition : Bool
  hasSubquery : Bool
  pkEqValue : Option String
  gathered : Option (List Cand)

namespace UpdateStmt

def writeCtx (u : UpdateStmt) : SnapshotCtx :=
  ⟨u.myId, u.peekNextId, u.activeTxnIds⟩

def visible (u : UpdateStmt) (row : Row) : Bool :=
  isVisibleForRead row u.writeCtx

def pkColumn (u : UpdateStmt) : String :=
  (pkCols u.schema).headD "id"

def key (u : UpdateStmt) (row : Row) : String :=
  matchKey (pkCols u.schema) row

def rowAt (u : UpdateStmt) (pos : Nat) (accepts : Row → Bool) : Bool :=
  (u.rows[pos]?).any accepts

/-- The lambda `resolve`: the position of a key in the cache, if the row there has it. -/
def resolve (u : UpdateStmt) (pk : String) : Option (Nat × Row) :=
  (u.rowPkPos.bind fun cache => cache pk).bind fun pos =>
    (u.rows[pos]?).bind fun row => if row.find u.pkColumn = some pk then some (pos, row) else none

/-- The loop over the candidates of an index. -/
def checkCands (u : UpdateStmt) : List Cand → List String → List Nat → DmlIndexHit
  | [], _, positions => ⟨true, false, positions.insertionSort (· ≤ ·)⟩
  | c :: cands, done, positions =>
    if c.xmax ≠ "0" then
      if c.viaPkIndex = false then u.checkCands cands done positions
      else match u.resolve c.pk with
        | none => ⟨false, true, []⟩
        | some (_, row) =>
          if isVisible row then ⟨false, false, []⟩ else u.checkCands cands done positions
    else if c.pk ∈ done then u.checkCands cands done positions
    else match u.resolve c.pk with
      | none => ⟨false, true, []⟩
      | some (pos, row) =>
        if (row.find "_xmin").getD "0" ≠ c.xmin then ⟨false, false, []⟩
        else if u.visible row = false then ⟨false, false, []⟩
        else if u.whereTrue row = false then u.checkCands cands (c.pk :: done) positions
        else u.checkCands cands (c.pk :: done) (pos :: positions)

/-- `dml_index_positions`; `gathered` is what the planner's access path yields, `none` where
it is a scan or gives up. -/
def dmlIndexPositions (u : UpdateStmt) : DmlIndexHit :=
  if u.hasCondition = false ∨ u.rows.length < u.minRows then ⟨false, false, []⟩
  else if ∃ id ∈ u.activeTxnIds, id ≠ u.curTxn then ⟨false, false, []⟩
  else if (u.schema.columns.filter (·.primaryKey)).length ≠ 1 then ⟨false, false, []⟩
  else match u.gathered with
    | none => ⟨false, false, []⟩
    | some cands => u.checkCands cands [] []

/-- The position that the cache has for `pk = literal`, once the row there is confirmed. -/
def cachedPosition (u : UpdateStmt) : Option Nat :=
  if (pkCols u.schema).length = 1 then
    u.pkEqValue.bind fun pk => (u.resolve pk).bind fun (pos, row) =>
      if u.visible row then some pos else none
  else none

def scanPositions (u : UpdateStmt) : List Nat :=
  (List.range u.rows.length).filter fun pos =>
    u.rowAt pos fun row => u.visible row && u.whereTrue row

def matchingPks (u : UpdateStmt) : List String :=
  ((u.rows.filter u.visible).filter u.whereTrue).map u.key

/-- The candidate positions of one attempt, for a condition without a subquery. -/
def candPos (u : UpdateStmt) (bypassPkCache : Bool) : List Nat :=
  if bypassPkCache then u.scanPositions
  else match u.cachedPosition with
    | some pos => if u.rowAt pos u.whereTrue then [pos] else []
    | none =>
      let hit := u.dmlIndexPositions
      if (pkCols u.schema).length = 1 ∧ hit.usable = true then hit.positions
      else u.scanPositions

def verified (u : UpdateStmt) (positions : List Nat) : Bool :=
  positions.all fun pos => u.rowAt pos u.visible

/-- The rows that `exec_update_inner` rewrites, as positions. -/
def targets (u : UpdateStmt) : List Nat :=
  if u.hasSubquery then
    (List.range u.rows.length).filter fun pos =>
      u.rowAt pos fun row => decide (u.key row ∈ u.matchingPks) && u.visible row
  else if u.verified (u.candPos false) then u.candPos false
  else u.candPos true

/-- The old versions at the positions are ended, their new versions appended. -/
def rewrite (u : UpdateStmt) (newVersion : Row → Row) (positions : List Nat) : List Row :=
  u.rows.mapIdx (fun pos row =>
      if pos ∈ positions then row.set "_xmax" (stdToString u.myId) else row) ++
    positions.filterMap fun pos => (u.rows[pos]?).map fun row => (newVersion row).tag u.myId

/-- The rows after `exec_update_inner`. -/
def execUpdateInner (u : UpdateStmt) (newVersion : Row → Row) : List Row :=
  u.rewrite newVersion u.targets

def selected (u : UpdateStmt) : List Nat :=
  (List.range u.rows.length).filter fun pos =>
    u.rowAt pos fun row => u.visible row && u.whereTrue row

/-- A live index entry whose cached position is `pos`. -/
def Named (u : UpdateStmt) (cands : List Cand) (pos : Nat) : Prop :=
  ∃ c ∈ cands, c.xmax = "0" ∧ ∃ row, u.resolve c.pk = some (pos, row)

/-- The condition of `targets_eq_selected_iff`, for the path that the statement takes. -/
def FindsItsRows (u : UpdateStmt) : Prop :=
  if u.hasSubquery then
    ∀ row ∈ u.rows, u.visible row → u.whereTrue row = false →
      ∀ row' ∈ u.rows, u.visible row' → u.whereTrue row' → u.key row ≠ u.key row'
  else match u.cachedPosition with
    | some pos => ∀ i, u.rowAt i (fun row => u.visible row && u.whereTrue row) → i = pos
    | none => (pkCols u.schema).length = 1 → u.dmlIndexPositions.usable →
        ∀ i, u.rowAt i (fun row => u.visible row && u.whereTrue row) →
          ∀ cands, u.gathered = some cands → u.Named cands i

variable {u : UpdateStmt} {pos : Nat}

theorem rowAt_iff {accepts : Row → Bool} :
    u.rowAt pos accepts ↔ ∃ row, u.rows[pos]? = some row ∧ accepts row :=
  Option.any_eq_true _ _

theorem mem_selected :
    pos ∈ u.selected ↔ u.rowAt pos (fun row => u.visible row && u.whereTrue row) := by
  rw [selected, List.mem_filter, List.mem_range]
  refine ⟨fun h => h.2, fun h => ⟨?_, h⟩⟩
  obtain ⟨row, hrow, -⟩ := rowAt_iff.mp h
  exact (List.getElem?_eq_some_iff.mp hrow).1

def search (u : UpdateStmt) : IndexSearch :=
  ⟨u.rows, u.pkColumn, u.rowPkPos, u.visible, u.whereTrue⟩

theorem checkCands_eq (u : UpdateStmt) : ∀ (cands : List Cand) (done : List String)
    (positions : List Nat),
    u.checkCands cands done positions = u.search.checkCands cands done positions
  | [], _, _ => rfl
  | c :: cands, done, positions => by
      rw [checkCands, IndexSearch.checkCands]
      simp only [u.checkCands_eq cands]
      rfl

theorem dmlIndexPositions_usable (h : u.dmlIndexPositions.usable) :
    ∃ cands, u.gathered = some cands ∧
      u.dmlIndexPositions = u.search.checkCands cands [] [] := by
  unfold dmlIndexPositions at h ⊢
  split at h
  · cases h
  · rename_i hcondition
    rw [if_neg hcondition]
    split at h
    · cases h
    · rename_i hactive
      rw [if_neg hactive]
      split at h
      · cases h
      · rename_i hpk
        rw [if_neg hpk]
        cases hgathered : u.gathered with
        | none => simp [hgathered] at h
        | some cands => exact ⟨cands, rfl, u.checkCands_eq cands [] []⟩

theorem selected_pairwise (u : UpdateStmt) : u.selected.Pairwise (· < ·) :=
  List.Pairwise.filter _ List.pairwise_lt_range

theorem mem_dmlIndexPositions_iff (h : u.dmlIndexPositions.usable) {cands : List Cand}
    (hgathered : u.gathered = some cands) :
    pos ∈ u.dmlIndexPositions.positions ↔ pos ∈ u.selected ∧ u.Named cands pos := by
  obtain ⟨cands', hcands', heq⟩ := dmlIndexPositions_usable h
  obtain rfl := Option.some.inj (hgathered.symm.trans hcands')
  rw [heq] at h ⊢
  exact IndexSearch.mem_checkCands_iff h

theorem dmlIndexPositions_pairwise (h : u.dmlIndexPositions.usable) :
    u.dmlIndexPositions.positions.Pairwise (· < ·) := by
  obtain ⟨cands, -, heq⟩ := dmlIndexPositions_usable h
  rw [heq] at h ⊢
  exact IndexSearch.checkCands_pairwise h

/-- A usable answer of an index has only rows of the statement, and all of them exactly if it
names them. -/
theorem dmlIndexPositions_eq_selected_iff (h : u.dmlIndexPositions.usable) :
    (∀ pos ∈ u.dmlIndexPositions.positions, pos ∈ u.selected) ∧
      (u.dmlIndexPositions.positions = u.selected ↔
        ∀ i ∈ u.selected, ∀ cands, u.gathered = some cands → u.Named cands i) := by
  obtain ⟨cands, hgathered, -⟩ := dmlIndexPositions_usable h
  have hmem : ∀ pos, pos ∈ u.dmlIndexPositions.positions ↔ pos ∈ u.selected ∧ u.Named cands pos :=
    fun pos => mem_dmlIndexPositions_iff h hgathered
  refine ⟨fun pos hpos => ((hmem pos).mp hpos).1, fun hall i hi cands' hcands' => ?_,
    fun hnamed => ?_⟩
  · obtain rfl := Option.some.inj (hgathered.symm.trans hcands')
    exact ((hmem i).mp (hall ▸ hi)).2
  · have hsame : ∀ pos, pos ∈ u.dmlIndexPositions.positions ↔ pos ∈ u.selected := fun pos =>
      ⟨fun hpos => ((hmem pos).mp hpos).1,
        fun hpos => (hmem pos).mpr ⟨hpos, hnamed pos hpos cands hgathered⟩⟩
    have hsorted := dmlIndexPositions_pairwise h
    have hperm := (List.perm_ext_iff_of_nodup (hsorted.imp fun h => h.ne)
      (u.selected_pairwise.imp fun h => h.ne)).mpr hsame
    exact hperm.eq_of_pairwise' (hsorted.imp fun h => h.le)
      (u.selected_pairwise.imp fun h => h.le)

theorem verified_of_subset {positions : List Nat} (h : ∀ pos ∈ positions, pos ∈ u.selected) :
    u.verified positions := by
  rw [verified, List.all_eq_true]
  intro pos hpos
  obtain ⟨row, hrow, haccepts⟩ := rowAt_iff.mp (mem_selected.mp (h pos hpos))
  exact rowAt_iff.mpr ⟨row, hrow, (Bool.and_eq_true_iff.mp haccepts).1⟩

theorem cachedPosition_eq_some (h : u.cachedPosition = some pos) :
    ∃ row, u.rows[pos]? = some row ∧ u.visible row := by
  unfold cachedPosition at h
  split at h
  · obtain ⟨pk, -, h⟩ := Option.bind_eq_some_iff.mp h
    obtain ⟨⟨p, row⟩, hresolve, h⟩ := Option.bind_eq_some_iff.mp h
    simp only [Option.ite_none_right_eq_some, Option.some.injEq] at h
    obtain ⟨hvisible, rfl⟩ := h
    exact ⟨row, (IndexSearch.resolve_eq_some (s := u.search) hresolve).1, hvisible⟩
  · cases h

theorem candPos_subset (u : UpdateStmt) : ∀ pos ∈ u.candPos false, pos ∈ u.selected := by
  intro pos hpos
  simp only [candPos, Bool.false_eq_true, if_false] at hpos
  split at hpos
  · rename_i p hcached
    split at hpos
    · rename_i hwhere
      obtain rfl := List.mem_singleton.mp hpos
      obtain ⟨row, hrow, hvisible⟩ := cachedPosition_eq_some hcached
      obtain ⟨row', hrow', hwhere⟩ := rowAt_iff.mp hwhere
      obtain rfl := Option.some.inj (hrow.symm.trans hrow')
      exact mem_selected.mpr (rowAt_iff.mpr ⟨row, hrow, by simp [hvisible, hwhere]⟩)
    · cases hpos
  · split at hpos
    · rename_i husable
      exact (dmlIndexPositions_eq_selected_iff husable.2).1 pos hpos
    · exact hpos

theorem candPos_eq_selected_iff (u : UpdateStmt) (hsub : u.hasSubquery = false) :
    u.candPos false = u.selected ↔ u.FindsItsRows := by
  simp only [candPos, Bool.false_eq_true, if_false, FindsItsRows, hsub]
  cases hcached : u.cachedPosition with
  | none =>
    simp only
    by_cases husable : (pkCols u.schema).length = 1 ∧ u.dmlIndexPositions.usable = true
    · rw [if_pos husable, (dmlIndexPositions_eq_selected_iff husable.2).2]
      simp only [husable, forall_true_left, mem_selected]
    · rw [if_neg husable]
      refine ⟨fun _ hlen hyes => absurd ⟨hlen, hyes⟩ husable, fun _ => rfl⟩
  | some pos =>
    simp only
    obtain ⟨row, hrow, hvisible⟩ := cachedPosition_eq_some hcached
    simp only [← mem_selected]
    constructor
    · intro heq i hi
      rw [← heq] at hi
      split at hi
      · exact List.mem_singleton.mp hi
      · cases hi
    · intro honly
      split
      · rename_i hwhere
        obtain ⟨row', hrow', hwhere⟩ := rowAt_iff.mp hwhere
        obtain rfl := Option.some.inj (hrow.symm.trans hrow')
        have hin : pos ∈ u.selected :=
          mem_selected.mpr (rowAt_iff.mpr ⟨row, hrow, by simp [hvisible, hwhere]⟩)
        have hperm : u.selected.Perm [pos] := by
          refine (List.perm_ext_iff_of_nodup (u.selected_pairwise.imp fun h => h.ne)
            (List.nodup_singleton _)).mpr fun i => ?_
          rw [List.mem_singleton]
          exact ⟨honly i, fun hi => hi ▸ hin⟩
        exact (List.perm_singleton.mp hperm).symm
      · rename_i hwhere
        refine (List.eq_nil_iff_forall_not_mem.mpr fun i hi => hwhere ?_).symm
        obtain rfl := honly i hi
        obtain ⟨row', hrow', haccepts⟩ := rowAt_iff.mp (mem_selected.mp hi)
        exact rowAt_iff.mpr ⟨row', hrow', (Bool.and_eq_true_iff.mp haccepts).2⟩

theorem mem_matchingPks {k : String} :
    k ∈ u.matchingPks ↔ ∃ row ∈ u.rows, u.visible row ∧ u.whereTrue row ∧
      u.key row = k := by
  simp only [matchingPks, List.mem_map, List.mem_filter, and_assoc]

theorem subqueryTargets_eq_selected_iff (u : UpdateStmt) (hsub : u.hasSubquery) :
    u.targets = u.selected ↔ u.FindsItsRows := by
  simp only [targets, FindsItsRows, hsub, if_true]
  constructor
  · intro heq row hrow hvisible hwhere row' hrow' hvisible' hwhere' hkey
    obtain ⟨pos, hpos⟩ := List.mem_iff_getElem?.mp hrow
    have hin : pos ∈ u.selected := by
      rw [← heq, List.mem_filter, List.mem_range]
      refine ⟨(List.getElem?_eq_some_iff.mp hpos).1, rowAt_iff.mpr ⟨row, hpos, ?_⟩⟩
      rw [hvisible, Bool.and_true, decide_eq_true_eq, hkey]
      exact mem_matchingPks.mpr ⟨row', hrow', hvisible', hwhere', rfl⟩
    obtain ⟨row'', hrow'', haccepts⟩ := rowAt_iff.mp (mem_selected.mp hin)
    obtain rfl := Option.some.inj (hpos.symm.trans hrow'')
    rw [hwhere, Bool.and_false] at haccepts
    cases haccepts
  · intro hapart
    refine List.filter_congr fun pos _ => ?_
    rw [Bool.eq_iff_iff, rowAt_iff, rowAt_iff]
    refine exists_congr fun row => and_congr_right fun hrow => ?_
    have hmem := List.mem_of_getElem? hrow
    simp only [Bool.and_eq_true, decide_eq_true_eq]
    constructor
    · rintro ⟨hkey, hvisible⟩
      obtain ⟨row', hrow', hvisible', hwhere', hkey⟩ := mem_matchingPks.mp hkey
      refine ⟨hvisible, ?_⟩
      by_contra hwhere
      exact hapart row hmem hvisible (by simpa using hwhere) row' hrow' hvisible' hwhere' hkey.symm
    · rintro ⟨hvisible, hwhere⟩
      exact ⟨mem_matchingPks.mpr ⟨row, hmem, hvisible, hwhere, rfl⟩, hvisible⟩

theorem targets_eq_selected_iff (u : UpdateStmt) : u.targets = u.selected ↔ u.FindsItsRows := by
  cases hsub : u.hasSubquery with
  | true => exact u.subqueryTargets_eq_selected_iff hsub
  | false =>
    rw [← u.candPos_eq_selected_iff hsub, targets]
    simp only [hsub, Bool.false_eq_true, if_false, verified_of_subset u.candPos_subset, if_true]

theorem candPos_pairwise (u : UpdateStmt) : (u.candPos false).Pairwise (· < ·) := by
  simp only [candPos, Bool.false_eq_true, if_false]
  split
  · split
    · exact List.pairwise_singleton _ _
    · exact List.Pairwise.nil
  · split
    · rename_i husable
      exact dmlIndexPositions_pairwise husable.2
    · exact u.selected_pairwise

theorem targets_pairwise (u : UpdateStmt) : u.targets.Pairwise (· < ·) := by
  rw [targets]
  split
  · exact List.Pairwise.filter _ List.pairwise_lt_range
  · rw [if_pos (verified_of_subset u.candPos_subset)]
    exact u.candPos_pairwise

theorem targets_visible (u : UpdateStmt) (h : pos ∈ u.targets) : u.rowAt pos u.visible := by
  rw [targets] at h
  split at h
  · obtain ⟨row, hrow, haccepts⟩ := rowAt_iff.mp (List.mem_filter.mp h).2
    exact rowAt_iff.mpr ⟨row, hrow, (Bool.and_eq_true_iff.mp haccepts).2⟩
  · rw [if_pos (verified_of_subset u.candPos_subset)] at h
    obtain ⟨row, hrow, haccepts⟩ := rowAt_iff.mp (mem_selected.mp (u.candPos_subset pos h))
    exact rowAt_iff.mpr ⟨row, hrow, (Bool.and_eq_true_iff.mp haccepts).1⟩

theorem not_visible_of_ended {row : Row} (hpos : u.myId ≠ 0) (hmax : u.myId ≤ uint64Max)
    (h : row.find "_xmax" = some (stdToString u.myId)) : u.visible row = false := by
  have hdead : isVisible row = false := by
    simp only [isVisible, h, beq_eq_false_iff_ne, ne_eq]
    exact fun he => hpos (stdToString_eq_zero_iff.mp he)
  have hxmax : parseTxnId row "_xmax" = u.myId := parseTxnId_of_find h hmax
  simp [visible, isVisibleForRead, writeCtx, hdead, hxmax]

theorem mem_of_rewrite_eq {newVersion : Row → Row} {positions positions' : List Nat}
    (hpos : u.myId ≠ 0) (hmax : u.myId ≤ uint64Max)
    (h : u.rewrite newVersion positions = u.rewrite newVersion positions') (hin : pos ∈ positions)
    (hvisible : u.rowAt pos u.visible) : pos ∈ positions' := by
  obtain ⟨row, hrow, hvisible⟩ := rowAt_iff.mp hvisible
  have hlt := (List.getElem?_eq_some_iff.mp hrow).1
  have hcell : ∀ ps, (u.rewrite newVersion ps)[pos]? =
      some (if pos ∈ ps then row.set "_xmax" (stdToString u.myId) else row) := by
    intro ps
    rw [rewrite, List.getElem?_append_left (by simpa using hlt), List.getElem?_mapIdx, hrow]
    rfl
  by_contra hnot
  have hsame := (hcell positions).symm.trans ((congrArg (·[pos]?) h).trans (hcell positions'))
  rw [if_pos hin, if_neg hnot, Option.some.injEq] at hsame
  have hended : row.find "_xmax" = some (stdToString u.myId) := by
    rw [← hsame, Row.find_set]
  rw [not_visible_of_ended hpos hmax hended] at hvisible
  cases hvisible

/-- An UPDATE rewrites the visible rows for which its condition is true, and no others,
exactly if the path that it takes finds them. -/
theorem execUpdateInner_exact_iff (u : UpdateStmt) (newVersion : Row → Row) (hpos : u.myId ≠ 0)
    (hmax : u.myId ≤ uint64Max) :
    u.execUpdateInner newVersion = u.rewrite newVersion u.selected ↔ u.FindsItsRows := by
  rw [← u.targets_eq_selected_iff, execUpdateInner]
  constructor
  · intro h
    have hsame : ∀ pos, pos ∈ u.targets ↔ pos ∈ u.selected := by
      refine fun pos => ⟨fun hin => ?_, fun hin => ?_⟩
      · exact mem_of_rewrite_eq hpos hmax h hin (u.targets_visible hin)
      · refine mem_of_rewrite_eq hpos hmax h.symm hin ?_
        obtain ⟨row, hrow, haccepts⟩ := rowAt_iff.mp (mem_selected.mp hin)
        exact rowAt_iff.mpr ⟨row, hrow, (Bool.and_eq_true_iff.mp haccepts).1⟩
    have hperm := (List.perm_ext_iff_of_nodup (u.targets_pairwise.imp fun h => h.ne)
      (u.selected_pairwise.imp fun h => h.ne)).mpr hsame
    exact hperm.eq_of_pairwise' (u.targets_pairwise.imp fun h => h.le)
      (u.selected_pairwise.imp fun h => h.le)
  · intro h
    rw [h]

/-- `UPDATE t SET v = 'x' WHERE v IN (SELECT 'a')` on a table without a key, with the rows
`v = 'a'` and `v = 'b'`. -/
def noKeyUpdate : UpdateStmt where
  schema := ⟨[⟨"v", false, false⟩], [], []⟩
  rows := [(Row.ofCells [("v", "a")]).tag 1, (Row.ofCells [("v", "b")]).tag 1]
  rowPkPos := none
  activeTxnIds := ∅
  curTxn := 0
  myId := 5
  peekNextId := 6
  minRows := 64
  whereTrue := fun row => row.find "v" == some "a"
  hasCondition := true
  hasSubquery := true
  pkEqValue := none
  gathered := none

/-- `UPDATE t SET v = 'x' WHERE id = '1'` on two rows with this `id`, which is no key; the
cache has the position of one of them from an earlier UPDATE. -/
def twoIdsUpdate : UpdateStmt where
  schema := ⟨[⟨"id", false, false⟩, ⟨"v", false, false⟩], [], []⟩
  rows := [(Row.ofCells [("id", "1"), ("v", "a")]).tag 1,
    (Row.ofCells [("id", "1"), ("v", "b")]).tag 1]
  rowPkPos := some fun key => if key = "1" then some 1 else none
  activeTxnIds := ∅
  curTxn := 0
  myId := 5
  peekNextId := 6
  minRows := 64
  whereTrue := fun row => row.find "id" == some "1"
  hasCondition := true
  hasSubquery := false
  pkEqValue := some "1"
  gathered := none

/-- The first statement rewrites the row that it does not select, the second leaves out one
that it does. -/
theorem execUpdateInner_rewrites_other_rows :
    noKeyUpdate.execUpdateInner (·.set "v" "x") ≠
      noKeyUpdate.rewrite (·.set "v" "x") noKeyUpdate.selected ∧
    twoIdsUpdate.execUpdateInner (·.set "v" "x") ≠
      twoIdsUpdate.rewrite (·.set "v" "x") twoIdsUpdate.selected := by
  decide

theorem execUpdateInner_exact_iff_twoIds :
    (twoIdsUpdate.myId ≠ 0 ∧ twoIdsUpdate.myId ≤ uint64Max) ∧
      (twoIdsUpdate.execUpdateInner (·.set "v" "x") =
        twoIdsUpdate.rewrite (·.set "v" "x") twoIdsUpdate.selected ↔ twoIdsUpdate.FindsItsRows) :=
  ⟨by decide, twoIdsUpdate.execUpdateInner_exact_iff (·.set "v" "x") (by decide) (by decide)⟩

end UpdateStmt

end RusqlEngine
