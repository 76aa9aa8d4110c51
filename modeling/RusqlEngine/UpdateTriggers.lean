import RusqlEngine.UpdateTargets
import RusqlEngine.Keys
import RusqlEngine.Library.ExceptFold
import RusqlEngine.Library.Positions

/-!
# What an UPDATE trigger is shown

`exec_update` computes the (OLD, NEW) pairs of its triggers by `trigger_rows_for`, from the rows the
session's snapshot shows and each assignment on the row as it is. `exec_update_inner` takes the live
rows and evaluates each assignment behind the ones before it. For ORDER BY and LIMIT `rows_of_limit`
makes a condition.
-/

namespace RusqlEngine

/-- `row[col] = value` for each of the pairs. -/
def Row.setAll (row : Row) (vals : List (String × String)) : Row :=
  vals.foldl (fun r e => r.set e.1 e.2) row

/-- An UPDATE of a table with triggers that leave the table alone. The evaluators, the conversion of
types and the checks of a row are parameters; `ε` is the type of expressions. -/
structure TriggeredUpdate (ε : Type) where
  stmt : UpdateStmt
  readCtx : SnapshotCtx
  assignments : List (String × ε)
  evalArith : Row → ε → String
  evalArithExact : Row → ε → String
  singleResult : ε → Bool
  isFloat : String → Bool
  floatAsDoubleText : String → String
  coerce : String → String → Except String String
  strictError : Row → Option String
  memberError : String → String → Option String
  onUpdateNow : List String
  nowText : String → String
  violation : Row → Row → Option String
  refused : List (Row × Row) → Option String

namespace TriggeredUpdate

variable {ε : Type} (t : TriggeredUpdate ε)

def columnNames : List String :=
  t.stmt.schema.columns.map (·.name)

/-- `coerce_column_value`, which lets a NULL be. -/
def coerceColumnValue (col value : String) : Except String String :=
  if value = executorNull then .ok value else t.coerce col value

/-- The lambda `typed` of `trigger_rows_for`. -/
def typed (col value : String) : String :=
  if col ∈ t.columnNames then
    match t.coerceColumnValue col value with
    | .ok coerced => coerced
    | .error _ => value
  else value

def triggerNew (row : Row) : Row :=
  row.setAll (t.assignments.map fun a => (a.1, t.typed a.1 (t.evalArith row a.2)))

def triggerRowsFor : List (Row × Row) :=
  (t.stmt.rows.filter fun row => isVisibleForRead row t.readCtx && t.stmt.whereTrue row).map
    fun row => (row, t.triggerNew row)

/-- What an assignment works out on a row, before the column fits it. -/
def exactValue (working : Row) (a : String × ε) : String :=
  let value := t.evalArithExact working a.2
  if value ≠ executorNull ∧ t.singleResult a.2 ∧ a.1 ∈ t.columnNames ∧ t.isFloat a.1 = false
  then t.floatAsDoubleText value
  else value

def working (row : Row) (done : List (String × ε)) : Row :=
  done.foldl (fun r a => r.set a.1 (t.exactValue r a)) row

/-- The values that the assignments work out, each on the row as the ones before it left it. -/
def workedOut : Row → List (String × ε) → List (String × String)
  | _, [] => []
  | working, a :: rest =>
    (a.1, t.exactValue working a) ::
      workedOut (working.set a.1 (t.exactValue working a)) rest

/-- The value as its column takes it, ENUM and SET members checked. -/
def fitted (e : String × String) : Except String (String × String) :=
  if e.2 = executorNull ∨ e.1 ∉ t.columnNames then .ok e
  else match t.coerceColumnValue e.1 e.2 with
    | .error msg => .error msg
    | .ok value =>
      match t.memberError e.1 value with
      | some msg => .error msg
      | none => .ok (e.1, value)

def changed (row : Row) (vals : List (String × String)) : Bool :=
  vals.any fun e => row.find e.1 != some e.2

/-- The columns that take the time of the statement. -/
def timed : List (String × String) :=
  (t.onUpdateNow.filter fun col => !(t.assignments.map (·.1)).contains col).map fun col =>
    (col, t.nowText col)

/-- The new version of a row, before it is stamped. -/
def newRow (row : Row) : Except String Row :=
  match t.strictError row with
  | some msg => .error msg
  | none =>
    match (t.workedOut row t.assignments).mapM t.fitted with
    | .error msg => .error msg
    | .ok vals =>
      let new := if changed row vals then (row.setAll vals).setAll t.timed else row.setAll vals
      match t.violation row new with
      | some msg => .error msg
      | none => .ok new

def unknownColumn (col : String) : String :=
  "Unknown column '" ++ col ++ "' in 'field list'"

/-- The (row before, row after) pairs that `exec_update_inner` writes. -/
def written : Except String (List (Row × Row)) :=
  match t.assignments.find? fun a => !t.columnNames.contains a.1 with
  | some a => .error (unknownColumn a.1)
  | none =>
    match (t.stmt.targets.filterMap (t.stmt.rows[·]?)).mapM fun row =>
        (t.newRow row).map fun new => (row, new) with
    | .error msg => .error msg
    | .ok pairs =>
      match t.refused pairs with
      | some msg => .error msg
      | none => .ok pairs

end TriggeredUpdate

namespace UpdateStmt

/-- The path that the statement takes comes to the row: by its match key for a condition with a
subquery, else by the position cache, an index or a scan. -/
def Reaches (u : UpdateStmt) (pos : Nat) (row : Row) : Prop :=
  if u.hasSubquery then
    ∃ row' ∈ u.rows, u.visible row' ∧ u.whereTrue row' ∧ u.key row' = u.key row
  else u.whereTrue row = true ∧
    match u.cachedPosition with
    | some p => pos = p
    | none => (pkCols u.schema).length = 1 → u.dmlIndexPositions.usable →
        ∀ cands, u.gathered = some cands → u.Named cands pos

end UpdateStmt

namespace TriggeredUpdate

variable {ε : Type} (t : TriggeredUpdate ε)

/-- When the triggers see what the statement does: the versions that the session reads and the WHERE
is true of are its live ones, the last assignment to each column gives the same on the row itself as
on the row changed so far, and a row that changes already has the statement's time in the columns
that take it. -/
structure SeesTheUpdate : Prop where
  rows : ∀ (pos : Nat) (row : Row), t.stmt.rows[pos]? = some row →
    (isVisibleForRead row t.readCtx ∧ t.stmt.whereTrue row ↔
      t.stmt.visible row ∧ t.stmt.Reaches pos row)
  values : ∀ row ∈ t.stmt.rows, isVisibleForRead row t.readCtx →
    t.stmt.whereTrue row →
    ∀ done a rest, t.assignments = done ++ a :: rest → (∀ b ∈ rest, b.1 ≠ a.1) →
      t.typed a.1 (t.evalArith row a.2) = t.typed a.1 (t.exactValue (t.working row done) a)
  times : ∀ row ∈ t.stmt.rows, isVisibleForRead row t.readCtx →
    t.stmt.whereTrue row →
    changed row ((t.workedOut row t.assignments).map fun e => (e.1, t.typed e.1 e.2)) →
    ∀ e ∈ t.timed, row.find e.1 = some e.2

end TriggeredUpdate

variable {σ : Type*}

theorem Row.find_setAll_map (k f : σ → String) (steps : List σ) (row : Row) (c : String) :
    (row.setAll (steps.map fun s => (k s, f s))).find c =
      ((steps.reverse.find? fun s => k s == c).map f).or (row.find c) := by
  induction steps using List.reverseRecOn with
  | nil => rfl
  | append_singleton steps s ih =>
    rw [List.map_append, Row.setAll, List.foldl_append, List.reverse_append]
    change ((row.setAll (steps.map fun s => (k s, f s))).set (k s) (f s)).find c = _
    by_cases hc : c = k s
    · subst hc
      simp
    · rw [Row.find_set_of_ne _ _ hc, ih, List.reverse_singleton, List.singleton_append,
        List.find?_cons_of_neg (by simpa using Ne.symm hc)]

variable {row : Row} {k f : σ → String} {steps : List σ}

theorem Row.find_setAll_map_of_ne {c : String} (h : ∀ s ∈ steps, k s ≠ c) :
    (row.setAll (steps.map fun s => (k s, f s))).find c = row.find c := by
  have hnone : steps.reverse.find? (fun s => k s == c) = none := by
    rw [List.find?_eq_none]
    intro s hs
    simpa using h s (List.mem_reverse.mp hs)
  rw [Row.find_setAll_map, hnone]
  rfl

theorem Row.find_setAll_map_of_mem {s : σ} (row : Row) (hs : s ∈ steps)
    (hf : ∀ s' ∈ steps, k s' = k s → f s' = f s) :
    (row.setAll (steps.map fun s => (k s, f s))).find (k s) = some (f s) := by
  rw [Row.find_setAll_map]
  cases hfind : steps.reverse.find? fun s' => k s' == k s with
  | none => exact absurd (List.find?_eq_none.mp hfind s (List.mem_reverse.mpr hs)) (by simp)
  | some s' =>
    have hcol : k s' = k s := by simpa using List.find?_some hfind
    have hmem := List.mem_reverse.mp (List.mem_of_find?_eq_some hfind)
    rw [Option.map_some, hf s' hmem hcol, Option.some_or]

theorem Row.setAll_map_eq_iff {g : σ → String} :
    row.setAll (steps.map fun s => (k s, f s)) = row.setAll (steps.map fun s => (k s, g s)) ↔
      ∀ done s rest, steps = done ++ s :: rest → (∀ b ∈ rest, k b ≠ k s) → f s = g s := by
  constructor
  · rintro heq done s rest rfl hlast
    have hcell := congrArg (fun r => Row.find r (k s)) heq
    have hfind : (done ++ s :: rest).reverse.find? (fun b => k b == k s) = some s := by
      rw [List.reverse_append, List.reverse_cons, List.append_assoc, List.find?_append]
      have hnone : rest.reverse.find? (fun b => k b == k s) = none := by
        rw [List.find?_eq_none]
        intro b hb
        simpa using hlast b (List.mem_reverse.mp hb)
      rw [hnone]
      simp
    simp only [Row.find_setAll_map, hfind, Option.map_some, Option.some_or,
      Option.some.injEq] at hcell
    exact hcell
  · intro h
    refine Row.ext_find fun c => ?_
    rw [Row.find_setAll_map, Row.find_setAll_map]
    cases hfind : steps.reverse.find? fun s => k s == c with
    | none => rfl
    | some s =>
      obtain ⟨hcol, later, done, hsteps, hlater⟩ := List.find?_eq_some_iff_append.mp hfind
      have hsplit : steps = done.reverse ++ s :: later.reverse := by
        rw [← List.reverse_reverse steps, hsteps]
        simp
      have hvalue := h _ s _ hsplit fun b hb => by
        have := hlater b (List.mem_reverse.mp hb)
        rw [eq_of_beq hcol]
        simpa using this
      rw [Option.map_some, Option.map_some, hvalue]

def withDone {α : Type*} (done : List α) : List α → List (List α × α)
  | [] => []
  | a :: rest => (done, a) :: withDone (done ++ [a]) rest

theorem map_snd_withDone {α : Type*} (done l : List α) : (withDone done l).map (·.2) = l := by
  induction l generalizing done with
  | nil => rfl
  | cons a l ih => rw [withDone, List.map_cons, ih]

theorem withDone_append {α : Type*} (done l l' : List α) :
    withDone done (l ++ l') = withDone done l ++ withDone (done ++ l) l' := by
  induction l generalizing done with
  | nil => simp [withDone]
  | cons a l ih =>
    rw [List.cons_append, withDone, withDone, ih, List.cons_append, List.append_assoc,
      List.singleton_append]

theorem fst_of_withDone_eq {α : Type*} {start l : List α} {done rest : List (List α × α)}
    {s : List α × α} (h : withDone start l = done ++ s :: rest) :
    s.1 = start ++ done.map (·.2) := by
  induction done generalizing start l with
  | nil =>
    cases l with
    | nil => cases h
    | cons a l =>
      rw [withDone, List.nil_append] at h
      rw [← (List.cons.inj h).1]
      simp
  | cons d done ih =>
    cases l with
    | nil => cases h
    | cons a l =>
      rw [withDone, List.cons_append] at h
      obtain ⟨rfl, htail⟩ := List.cons.inj h
      rw [ih htail]
      simp

namespace UpdateStmt

theorem mem_targets_iff {u : UpdateStmt} {pos : Nat} (hrow : u.rows[pos]? = some row) :
    pos ∈ u.targets ↔ u.visible row ∧ u.Reaches pos row := by
  have hselected : pos ∈ u.selected ↔ u.visible row ∧ u.whereTrue row := by
    rw [mem_selected, rowAt_iff]
    simp [hrow]
  rw [targets, Reaches]
  cases hsub : u.hasSubquery with
  | true =>
    rw [if_pos rfl, if_pos rfl, List.mem_filter, List.mem_range, rowAt_iff]
    simp only [hrow, Option.some.injEq, exists_eq_left', Bool.and_eq_true, decide_eq_true_eq,
      mem_matchingPks, (List.getElem?_eq_some_iff.mp hrow).1, true_and]
    exact and_comm
  | false =>
    simp only [Bool.false_eq_true, if_false, verified_of_subset u.candPos_subset, if_true]
    simp only [candPos, Bool.false_eq_true, if_false]
    cases hcached : u.cachedPosition with
    | some p =>
      obtain ⟨row', hrow', hvisible⟩ := cachedPosition_eq_some hcached
      simp only
      split
      · rename_i hwhere
        rw [List.mem_singleton]
        constructor
        · rintro rfl
          obtain rfl := Option.some.inj (hrow.symm.trans hrow')
          obtain ⟨r, hr, hwhere⟩ := rowAt_iff.mp hwhere
          obtain rfl := Option.some.inj (hrow.symm.trans hr)
          exact ⟨hvisible, hwhere, rfl⟩
        · exact fun h => h.2.2
      · rename_i hwhere
        refine ⟨fun h => absurd h List.not_mem_nil, fun h => absurd ?_ hwhere⟩
        obtain ⟨-, hw, rfl⟩ := h
        exact rowAt_iff.mpr ⟨row, hrow, hw⟩
    | none =>
      simp only
      split
      · rename_i husable
        obtain ⟨cands, hgathered, -⟩ := dmlIndexPositions_usable husable.2
        rw [mem_dmlIndexPositions_iff husable.2 hgathered, hselected, and_assoc]
        refine and_congr_right fun _ => and_congr_right fun _ => ⟨fun hnamed _ _ cands' hc => ?_,
          fun h => h husable.1 husable.2 cands hgathered⟩
        obtain rfl := Option.some.inj (hgathered.symm.trans hc)
        exact hnamed
      · rename_i husable
        change pos ∈ u.selected ↔ _
        rw [hselected]
        exact and_congr_right fun _ => ⟨fun hw => ⟨hw, fun h1 h2 => absurd ⟨h1, h2⟩ husable⟩,
          fun h => h.1⟩

end UpdateStmt

namespace TriggeredUpdate

variable {ε : Type} {t : TriggeredUpdate ε}

/-- The new version that an UPDATE which ends Ok writes for a row. -/
def writtenNew (t : TriggeredUpdate ε) (row : Row) : Row :=
  let vals := (t.workedOut row t.assignments).map fun e => (e.1, t.typed e.1 e.2)
  if changed row vals then (row.setAll vals).setAll t.timed else row.setAll vals

variable {e : String × String}

theorem fitted_eq_ok {e' : String × String} (h : t.fitted e = .ok e') :
    e' = (e.1, t.typed e.1 e.2) := by
  obtain ⟨col, value⟩ := e
  simp only [fitted] at h
  split at h
  · rename_i hskip
    cases h
    rcases hskip with rfl | hcol
    · simp [typed, coerceColumnValue]
    · simp [typed, hcol]
  · rename_i hskip
    push Not at hskip
    split at h
    · cases h
    · rename_i coerced hcoerce
      split at h
      · cases h
      · cases h
        simp [typed, hskip.2, hcoerce]

theorem newRow_eq_ok {new : Row} (h : t.newRow row = .ok new) : new = t.writtenNew row := by
  simp only [newRow] at h
  split at h
  · cases h
  · split at h
    · cases h
    · rename_i vals hvals
      obtain ⟨rfl, -⟩ := ExceptFold.mapM_eq_ok (fun e _ e' he' => fitted_eq_ok he') hvals
      split at h
      · cases h
      · exact (Except.ok.inj h).symm

theorem written_eq_ok {pairs : List (Row × Row)} (h : t.written = .ok pairs) :
    pairs = (t.stmt.targets.filterMap (t.stmt.rows[·]?)).map fun row =>
      (row, t.writtenNew row) := by
  simp only [written] at h
  split at h
  · cases h
  · split at h
    · cases h
    · rename_i hpairs
      have hnew : ∀ (row : Row) (pair : Row × Row),
          (t.newRow row).map (fun new => (row, new)) = .ok pair →
            pair = (row, t.writtenNew row) := by
        intro row pair hpair
        cases hrow : t.newRow row with
        | error msg =>
          rw [hrow] at hpair
          cases hpair
        | ok new =>
          rw [hrow] at hpair
          cases hpair
          rw [newRow_eq_ok hrow]
      split at h
      · cases h
      · cases h
        exact (ExceptFold.mapM_eq_ok (fun row _ => hnew row) hpairs).1

theorem workedOut_eq (t : TriggeredUpdate ε) (row : Row) (done rest : List (String × ε)) :
    t.workedOut (t.working row done) rest =
      (withDone done rest).map fun s => (s.2.1, t.exactValue (t.working row s.1) s.2) := by
  induction rest generalizing done with
  | nil => rfl
  | cons a rest ih =>
    have hnext : (t.working row done).set a.1 (t.exactValue (t.working row done) a) =
        t.working row (done ++ [a]) := by
      rw [working, working, List.foldl_append]
      rfl
    rw [workedOut, hnext, ih, withDone, List.map_cons]

/-- What the statement sets, as what the triggers set: the assignments in order, each with the
ones before it. -/
theorem writtenVals_eq (t : TriggeredUpdate ε) (row : Row) :
    ((t.workedOut row t.assignments).map fun e => (e.1, t.typed e.1 e.2)) =
      (withDone [] t.assignments).map fun s =>
        (s.2.1, t.typed s.2.1 (t.exactValue (t.working row s.1) s.2)) := by
  have h := t.workedOut_eq row [] t.assignments
  rw [show t.working row [] = row from rfl] at h
  rw [h, List.map_map]
  rfl

theorem triggerNew_eq (t : TriggeredUpdate ε) (row : Row) :
    t.triggerNew row = row.setAll ((withDone [] t.assignments).map fun s =>
      (s.2.1, t.typed s.2.1 (t.evalArith row s.2.2))) := by
  rw [triggerNew]
  conv_lhs => rw [← map_snd_withDone [] t.assignments, List.map_map]
  rfl

/-- The graphs of two functions have the same pairs exactly if their rows are the same and the
functions agree on them. -/
theorem perm_graph_iff {f g : Row → Row} {rows rows' : List Row} :
    (rows.map fun row => (row, f row)).Perm (rows'.map fun row => (row, g row)) ↔
      rows.Perm rows' ∧ ∀ row ∈ rows, f row = g row := by
  constructor
  · intro hperm
    have hrows := hperm.map Prod.fst
    simp only [List.map_map, Function.comp_def, List.map_id'] at hrows
    refine ⟨hrows, fun row hrow => ?_⟩
    have hmem := hperm.subset (List.mem_map.mpr ⟨row, hrow, rfl⟩)
    obtain ⟨row', -, heq⟩ := List.mem_map.mp hmem
    obtain ⟨rfl, hvalue⟩ := Prod.mk.inj heq
    exact hvalue.symm
  · rintro ⟨hrows, hvalues⟩
    have hcongr : rows.map (fun row => (row, f row)) = rows.map fun row => (row, g row) :=
      List.map_congr_left fun row hrow => by rw [hvalues row hrow]
    rw [hcongr]
    exact hrows.map _

theorem timed_apart (t : TriggeredUpdate ε) (he : e ∈ t.timed) :
    (∀ a ∈ t.assignments, a.1 ≠ e.1) ∧ e.2 = t.nowText e.1 := by
  obtain ⟨col, hcol, rfl⟩ := List.mem_map.mp he
  refine ⟨fun a ha hcon => ?_, rfl⟩
  have hin : (t.assignments.map (·.1)).contains col :=
    List.contains_iff_mem.mpr (List.mem_map.mpr ⟨a, ha, hcon⟩)
  have hnot := (List.mem_filter.mp hcol).2
  rw [hin] at hnot
  cases hnot

theorem find_setAll_timed (t : TriggeredUpdate ε) (row : Row) (he : e ∈ t.timed) :
    (row.setAll t.timed).find e.1 = some e.2 := by
  have hself : t.timed = t.timed.map fun s => (s.1, s.2) := by simp
  rw [hself]
  refine Row.find_setAll_map_of_mem (k := fun s : String × String => s.1) row he ?_
  intro s hs hcol
  rw [(t.timed_apart hs).2, (t.timed_apart he).2, hcol]

theorem setAll_timed_eq_iff (t : TriggeredUpdate ε) {old : Row}
    (hsame : ∀ e ∈ t.timed, row.find e.1 = old.find e.1) :
    row.setAll t.timed = row ↔ ∀ e ∈ t.timed, old.find e.1 = some e.2 := by
  constructor
  · intro heq e he
    rw [← hsame e he, ← t.find_setAll_timed row he, heq]
  · intro htimes
    refine Row.ext_find fun c => ?_
    by_cases hc : ∃ e ∈ t.timed, e.1 = c
    · obtain ⟨e, he, rfl⟩ := hc
      rw [t.find_setAll_timed row he, hsame e he, htimes e he]
    · push Not at hc
      have hself : t.timed = t.timed.map fun s => (s.1, s.2) := by simp
      rw [hself]
      exact Row.find_setAll_map_of_ne (k := fun s : String × String => s.1) hc

/-- The NEW row of a trigger is the row that is written. -/
theorem triggerNew_eq_writtenNew_iff (t : TriggeredUpdate ε) (row : Row) :
    t.triggerNew row = t.writtenNew row ↔
      (∀ done a rest, t.assignments = done ++ a :: rest → (∀ b ∈ rest, b.1 ≠ a.1) →
        t.typed a.1 (t.evalArith row a.2) = t.typed a.1 (t.exactValue (t.working row done) a)) ∧
      (changed row ((t.workedOut row t.assignments).map fun e => (e.1, t.typed e.1 e.2)) →
        ∀ e ∈ t.timed, row.find e.1 = some e.2) := by
  rw [triggerNew_eq, writtenNew, writtenVals_eq]
  generalize hsteps : withDone [] t.assignments = steps
  have hcols : ∀ s ∈ steps, ∀ e ∈ t.timed, s.2.1 ≠ e.1 := by
    intro s hs e he
    have hin : s.2 ∈ t.assignments := by
      rw [← map_snd_withDone [] t.assignments, hsteps]
      exact List.mem_map.mpr ⟨s, hs, rfl⟩
    exact (t.timed_apart he).1 s.2 hin
  have hvalues : (row.setAll (steps.map fun s =>
        (s.2.1, t.typed s.2.1 (t.evalArith row s.2.2))) =
      row.setAll (steps.map fun s =>
        (s.2.1, t.typed s.2.1 (t.exactValue (t.working row s.1) s.2)))) ↔
      ∀ done a rest, t.assignments = done ++ a :: rest → (∀ b ∈ rest, b.1 ≠ a.1) →
        t.typed a.1 (t.evalArith row a.2) = t.typed a.1 (t.exactValue (t.working row done) a) := by
    rw [Row.setAll_map_eq_iff (k := fun s : List (String × ε) × (String × ε) => s.2.1)]
    constructor
    · intro h done a rest hsplit hlast
      have hparts : steps = withDone [] done ++ (done, a) :: withDone (done ++ [a]) rest := by
        rw [← hsteps, hsplit, withDone_append, List.nil_append, withDone]
      refine h _ (done, a) _ hparts fun b hb => hlast b.2 ?_
      rw [← map_snd_withDone (done ++ [a]) rest]
      exact List.mem_map.mpr ⟨b, hb, rfl⟩
    · intro h done s rest hsplit hlast
      have hs := fst_of_withDone_eq (hsteps.trans hsplit)
      rw [List.nil_append] at hs
      have hassign : t.assignments = s.1 ++ s.2 :: rest.map (·.2) := by
        rw [← map_snd_withDone [] t.assignments, hsteps, hsplit, List.map_append, List.map_cons, hs]
      refine h s.1 s.2 _ hassign fun b hb => ?_
      obtain ⟨b', hb', rfl⟩ := List.mem_map.mp hb
      exact hlast b' hb'
  rw [← hvalues]
  generalize hA : row.setAll (steps.map fun s =>
    (s.2.1, t.typed s.2.1 (t.evalArith row s.2.2))) = new
  have hnew : ∀ e ∈ t.timed, new.find e.1 = row.find e.1 := by
    intro e he
    rw [← hA]
    exact Row.find_setAll_map_of_ne (k := fun s : List (String × ε) × (String × ε) => s.2.1)
      fun s hs => hcols s hs e he
  cases hchanged : changed row (steps.map fun s =>
      (s.2.1, t.typed s.2.1 (t.exactValue (t.working row s.1) s.2))) with
  | false => simp
  | true =>
    simp only [if_true, forall_true_left]
    generalize hB : row.setAll (steps.map fun s =>
      (s.2.1, t.typed s.2.1 (t.exactValue (t.working row s.1) s.2))) = new'
    have hnew' : ∀ e ∈ t.timed, new'.find e.1 = row.find e.1 := by
      intro e he
      rw [← hB]
      exact Row.find_setAll_map_of_ne (k := fun s : List (String × ε) × (String × ε) => s.2.1)
        fun s hs => hcols s hs e he
    constructor
    · intro heq
      have htimes : ∀ e ∈ t.timed, row.find e.1 = some e.2 := by
        intro e he
        rw [← hnew e he, heq, t.find_setAll_timed new' he]
      exact ⟨heq.trans ((t.setAll_timed_eq_iff hnew').mpr htimes), htimes⟩
    · rintro ⟨rfl, htimes⟩
      exact ((t.setAll_timed_eq_iff hnew').mpr htimes).symm

/-- The triggers are run with the pairs that the UPDATE writes, exactly if they see it. -/
theorem triggerRowsFor_perm_written_iff (t : TriggeredUpdate ε) (pairs : List (Row × Row))
    (hok : t.written = .ok pairs) : t.triggerRowsFor.Perm pairs ↔ t.SeesTheUpdate := by
  have hnodup : t.stmt.targets.Nodup := t.stmt.targets_pairwise.imp fun h => h.ne
  have hrange : ∀ pos ∈ t.stmt.targets, pos < t.stmt.rows.length := by
    intro pos hpos
    obtain ⟨row, hrow, -⟩ := UpdateStmt.rowAt_iff.mp (t.stmt.targets_visible hpos)
    exact (List.getElem?_eq_some_iff.mp hrow).1
  rw [written_eq_ok hok, triggerRowsFor, perm_graph_iff,
    Positions.filter_perm_filterMap_iff hnodup hrange]
  have hmem : ∀ row, row ∈ t.stmt.rows.filter (fun row =>
      isVisibleForRead row t.readCtx && t.stmt.whereTrue row) ↔
      row ∈ t.stmt.rows ∧ isVisibleForRead row t.readCtx ∧ t.stmt.whereTrue row := by
    intro row
    rw [List.mem_filter, Bool.and_eq_true]
  constructor
  · rintro ⟨hrows, hvalues⟩
    refine ⟨fun pos row hrow => ?_, fun row hrow hread hwhere => ?_,
      fun row hrow hread hwhere => ?_⟩
    · rw [← UpdateStmt.mem_targets_iff hrow, ← hrows pos row hrow, Bool.and_eq_true]
    · exact ((t.triggerNew_eq_writtenNew_iff row).mp
        (hvalues row ((hmem row).mpr ⟨hrow, hread, hwhere⟩))).1
    · exact ((t.triggerNew_eq_writtenNew_iff row).mp
        (hvalues row ((hmem row).mpr ⟨hrow, hread, hwhere⟩))).2
  · intro h
    refine ⟨fun pos row hrow => ?_, fun row hrow => ?_⟩
    · rw [UpdateStmt.mem_targets_iff hrow, ← h.rows pos row hrow, Bool.and_eq_true]
    · obtain ⟨hin, hread, hwhere⟩ := (hmem row).mp hrow
      exact (t.triggerNew_eq_writtenNew_iff row).mpr
        ⟨h.values row hin hread hwhere, h.times row hin hread hwhere⟩

/-- `UPDATE t SET .. ` on the table `t(id PRIMARY KEY, a, b)` with the row (1, 'x', 'y'); an
expression is what it gives on a row. -/
def oneRowUpdate (assignments : List (String × (Row → String))) :
    TriggeredUpdate (Row → String) where
  stmt :=
    { schema := ⟨[⟨"id", true, false⟩, ⟨"a", false, false⟩, ⟨"b", false, false⟩], [], []⟩
      rows := [(Row.ofCells [("id", "1"), ("a", "x"), ("b", "y")]).tag 1]
      rowPkPos := none
      activeTxnIds := ∅
      curTxn := 0
      myId := 5
      peekNextId := 6
      minRows := 64
      whereTrue := fun _ => true
      hasCondition := false
      hasSubquery := false
      pkEqValue := none
      gathered := none }
  readCtx := ⟨0, 5, ∅⟩
  assignments := assignments
  evalArith := fun row expr => expr row
  evalArithExact := fun row expr => expr row
  singleResult := fun _ => false
  isFloat := fun _ => false
  floatAsDoubleText := id
  coerce := fun _ value => .ok value
  strictError := fun _ => none
  memberError := fun _ _ => none
  onUpdateNow := []
  nowText := fun _ => ""
  violation := fun _ _ => none
  refused := fun _ => none

/-- `SET a = CONCAT(a, '0'), b = 'z'`. -/
theorem triggerRowsFor_perm_written_concat :
    (oneRowUpdate [("a", fun row => cell row "a" ++ "0"), ("b", fun _ => "z")]).written =
      .ok [((Row.ofCells [("id", "1"), ("a", "x"), ("b", "y")]).tag 1,
        (Row.ofCells [("id", "1"), ("a", "x0"), ("b", "z")]).tag 1)] ∧
    ((oneRowUpdate [("a", fun row => cell row "a" ++ "0"), ("b", fun _ => "z")]).triggerRowsFor.Perm
        [((Row.ofCells [("id", "1"), ("a", "x"), ("b", "y")]).tag 1,
          (Row.ofCells [("id", "1"), ("a", "x0"), ("b", "z")]).tag 1)] ↔
      (oneRowUpdate [("a", fun row => cell row "a" ++ "0"),
        ("b", fun _ => "z")]).SeesTheUpdate) := by
  have hok := ExceptFold.eq_ok_of_toOption (show
    (oneRowUpdate [("a", fun row => cell row "a" ++ "0"), ("b", fun _ => "z")]).written.toOption =
      some [((Row.ofCells [("id", "1"), ("a", "x"), ("b", "y")]).tag 1,
        (Row.ofCells [("id", "1"), ("a", "x0"), ("b", "z")]).tag 1)] by decide)
  exact ⟨hok, triggerRowsFor_perm_written_iff _ _ hok⟩

/-- `SET a = CONCAT(a, '0'), b = a` writes `b = 'x0'`, and its triggers are told `NEW.b = 'x'`. -/
theorem triggerRowsFor_misses_earlier_assignment :
    (oneRowUpdate [("a", fun row => cell row "a" ++ "0"), ("b", fun row => cell row "a")]).written =
      .ok [((Row.ofCells [("id", "1"), ("a", "x"), ("b", "y")]).tag 1,
        (Row.ofCells [("id", "1"), ("a", "x0"), ("b", "x0")]).tag 1)] ∧
    ¬ (oneRowUpdate [("a", fun row => cell row "a" ++ "0"),
          ("b", fun row => cell row "a")]).triggerRowsFor.Perm
        [((Row.ofCells [("id", "1"), ("a", "x"), ("b", "y")]).tag 1,
          (Row.ofCells [("id", "1"), ("a", "x0"), ("b", "x0")]).tag 1)] :=
  ⟨ExceptFold.eq_ok_of_toOption (by decide), by decide⟩

end TriggeredUpdate

end RusqlEngine
