import RusqlEngine.Keys
import RusqlEngine.Library.Fixpoint

/-!
# Recursive common table expressions

`exec_with` computes `WITH RECURSIVE name AS (base UNION term)` by rounds. A round runs the term on
everything so far, or on the last round's rows alone where `semi_naive_ok` has found that enough,
and keeps the rows with a new key. The rounds end when one keeps nothing; after a thousand the
statement fails.
-/

namespace RusqlEngine

/-- `SelectColumn`, with what `collect_agg_refs_*` finds in the expressions of an item. -/
inductive SelectColumn
  | all
  | column
  | columnAlias
  | agg
  | aggAlias
  | func (aggRefs : List String)
  | expr (aggRefs : List String)
  | caseWhen (aggRefs : List String)
  | winFunc
  | subquery
deriving DecidableEq, Repr

/-- A condition, with the answer of `cond_has_any_subquery`. -/
structure SelectCondition where
  hasSubquery : Bool
deriving DecidableEq, Repr

/-- `Join`: its table, and whether it is LATERAL or of a subquery. The test reads no ON. -/
structure SelectJoin where
  table : String
  lateral : Bool
  subquery : Bool
deriving DecidableEq, Repr

/-- What the test of the recursive term reads of a `Statement::Select`. -/
structure SelectStatement where
  table : String
  subquery : Bool
  columns : List SelectColumn
  condition : Option SelectCondition
  joins : List SelectJoin
  groupBy : Bool
  having : Option SelectCondition
  limit : Bool
  offset : Bool
deriving DecidableEq, Repr

def SelectColumn.columnHasAggregate : SelectColumn → Bool
  | .agg | .aggAlias => true
  | .func refs | .expr refs | .caseWhen refs => !refs.isEmpty
  | .all | .column | .columnAlias | .winFunc | .subquery => false

def conditionHasSubquery : Option SelectCondition → Bool
  | none => false
  | some condition => condition.hasSubquery

def SelectStatement.cteRefs (sel : SelectStatement) (name : String) : Nat :=
  (if sel.table = name then 1 else 0) + sel.joins.countP fun j => j.table == name

/-- `semi_naive_ok`; `none` for a term that is no SELECT. -/
def semiNaiveOk (name : String) : Option SelectStatement → Bool
  | none => false
  | some sel =>
    !sel.subquery && !sel.groupBy && !sel.limit && !sel.offset &&
    !conditionHasSubquery sel.condition && !conditionHasSubquery sel.having &&
    !(sel.columns.any fun col => col.columnHasAggregate || col == .subquery) &&
    !(sel.joins.any fun j => j.lateral || j.subquery) && sel.cteRefs name == 1

/-- The columns and the rows that `parse_table_output` reads from an answer. -/
structure TableOutput where
  cols : List String
  rows : List Row

/-- `WITH RECURSIVE name AS (base UNION term)`: what the base answers, the term as the test
sees it, and what the term answers over given contents of the CTE. -/
structure RecursiveCte where
  name : String
  base : Except String TableOutput
  statement : Option SelectStatement
  term : List Row → Except String TableOutput

/-- `it != r.end() ? collation::key(it->second) : std::string()`. -/
def cellKey (coll : Collation) (row : Row) (col : String) : String :=
  match row.find col with
  | some text => coll.key text
  | none => ""

def columnKeys (coll : Collation) (cols : List String) (row : Row) : List String :=
  cols.map (cellKey coll row)

/-- `row_key`: the same keys as one text. -/
def rowKeyText (coll : Collation) (cols : List String) (row : Row) : String :=
  String.join (cols.map fun col => cellKey coll row col ++ "\x01")

/-- The text of a row by the keys of its columns. -/
def keysText (keys : List String) : String :=
  String.join (keys.map fun key => key ++ "\x01")

theorem rowKeyText_eq (coll : Collation) (cols : List String) (row : Row) :
    rowKeyText coll cols row = keysText (columnKeys coll cols row) := by
  rw [rowKeyText, keysText, columnKeys, List.map_map]
  rfl

/-- A row of the term under the columns of the base, by position. -/
def mapRow (cols recCols : List String) (recRow : Row) : Row :=
  ((cols.zipIdx.foldl (fun (mapped : Row) c =>
    mapped.set c.1 (((recCols[c.2]?).bind recRow.find).getD "")) ∅).set "_xmin" "0").set "_xmax" "0"

/-- `accumulated`, `seen` and `delta`. -/
structure CteLoop where
  accumulated : List Row
  seen : List String
  delta : List Row

variable {k : List String}

namespace RecursiveCte

open Fixpoint

/-- The rows of the term under the columns of the base. -/
def mappedTerm (cte : RecursiveCte) (cols : List String) (contents : List Row) :
    Except String (List Row) :=
  (cte.term contents).map fun out => out.rows.map (mapRow cols out.cols)

/-- What `s.tables[name]` holds while the term runs. -/
def roundInput (semiNaive : Bool) (st : CteLoop) : List Row :=
  if semiNaive then st.delta else st.accumulated

/-- `fresh`: the rows whose key is not in `seen`, which does not change meanwhile. -/
def freshRows (coll : Collation) (cols : List String) (st : CteLoop) (rows : List Row) : List Row :=
  rows.filter fun row => !st.seen.contains (rowKeyText coll cols row)

/-- The state after a round with fresh rows. -/
def advance (coll : Collation) (cols : List String) (semiNaive : Bool) (st : CteLoop)
    (fresh : List Row) : CteLoop where
  accumulated := st.accumulated ++ fresh
  seen := st.seen ++ fresh.map (rowKeyText coll cols)
  delta := if semiNaive then fresh else st.delta

/-- One round; `none` at the fixed point. -/
def round (coll : Collation) (cte : RecursiveCte) (cols : List String) (semiNaive : Bool)
    (st : CteLoop) : Except String (Option CteLoop) :=
  match cte.mappedTerm cols (roundInput semiNaive st) with
  | .error e => .error e
  | .ok rows =>
    let fresh := freshRows coll cols st rows
    if fresh.isEmpty then .ok none else .ok (some (advance coll cols semiNaive st fresh))

def notReached (name : String) : String :=
  "Recursive CTE '" ++ name ++ "' did not reach a fixed point after 1000 iterations " ++
    "(still producing new rows) -- aborted instead of returning an incomplete result. " ++
    "Check the recursive term terminates, or the recursion may be genuinely unbounded."

/-- The rounds; the first argument is how many are left. -/
def loop (coll : Collation) (cte : RecursiveCte) (cols : List String) (semiNaive : Bool) :
    Nat → CteLoop → Except String (List Row)
  | 0, _ => .error (notReached cte.name)
  | n + 1, st =>
    match cte.round coll cols semiNaive st with
    | .error e => .error e
    | .ok none => .ok st.accumulated
    | .ok (some st') => cte.loop coll cols semiNaive n st'

/-- Everything before the first round. -/
def startLoop (coll : Collation) (base : TableOutput) : CteLoop where
  accumulated := base.rows
  seen := base.rows.map (rowKeyText coll base.cols)
  delta := base.rows

/-- The recursive branch of `exec_with` up to the main query: the rows of the CTE's table.
`taken` are the tables and the views there are. -/
def execWith (coll : Collation) (taken : List String) (cte : RecursiveCte) :
    Except String (List Row) :=
  if taken.contains cte.name then
    .error ("CTE name '" ++ cte.name ++ "' conflicts with an existing table or view")
  else
    match cte.base with
    | .error e => .error e
    | .ok base =>
      cte.loop coll base.cols (semiNaiveOk cte.name cte.statement) 1000 (startLoop coll base)

/-- When rounds of a term leave each derived row once: no two derived rows have one text, the base
repeats no row, no step of the term finds a new row twice, and where a round goes over the last rows
alone they give what all rows give. -/
structure InStages {ρ : Type} (key : ρ → List String) (term : List ρ → Except String (List ρ))
    (base : List ρ) (semiNaive : Bool) : Prop where
  told : Set.InjOn keysText {k | Derived key term base k}
  once : (base.map key).Nodup
  newOnce : NewOnce key term base semiNaive
  suffice : semiNaive → AddedSuffice key term base

/-- The table of the CTE is its fixpoint: every derived key once and no other; where the rounds went
over the last rows alone, rounds over everything find the same keys. -/
def FixpointTable (coll : Collation) (cte : RecursiveCte) (base : TableOutput)
    (table : List Row) : Prop :=
  (table.map (columnKeys coll base.cols)).Nodup ∧
  (∀ k, k ∈ keysOf (columnKeys coll base.cols) table ↔
    Derived (columnKeys coll base.cols) (cte.mappedTerm base.cols) base.rows k) ∧
  (semiNaiveOk cte.name cte.statement → ∀ table',
    cte.loop coll base.cols false 1000 (startLoop coll base) = .ok table' →
      keysOf (columnKeys coll base.cols) table = keysOf (columnKeys coll base.cols) table')

section

variable {coll : Collation} {cte : RecursiveCte} {cols : List String} {semiNaive : Bool}
  {st : CteLoop}

/-- Rows of another kind that the rows of the CTE stand for, where these are good ones. -/
structure Views {ρ : Type} (coll : Collation) (cte : RecursiveCte) (cols : List String)
    (good : Row → Prop) (view : Row → ρ) (key : ρ → List String)
    (term : List ρ → Except String (List ρ)) (base : List ρ) : Prop where
  keys : ∀ row, good row → columnKeys coll cols row = key (view row)
  terms : ∀ contents, (∀ row ∈ contents, good row) →
    (∀ k ∈ keysOf key (contents.map view), Derived key term base k) →
      (cte.mappedTerm cols contents).map (List.map view) = term (contents.map view)
  answers : ∀ contents rows, cte.mappedTerm cols contents = .ok rows → ∀ row ∈ rows, good row

theorem views_self (coll : Collation) (cte : RecursiveCte) (cols : List String) (base : List Row) :
    Views coll cte cols (fun _ => True) id (columnKeys coll cols) (cte.mappedTerm cols) base where
  keys _ _ := rfl
  terms contents _ _ := by
    rw [List.map_id]
    cases cte.mappedTerm cols contents with
    | error e => rfl
    | ok rows => exact congrArg Except.ok (List.map_id rows)
  answers _ _ _ _ _ := trivial

variable {ρ : Type} {good : Row → Prop} {view : Row → ρ} {key : ρ → List String}
  {term : List ρ → Except String (List ρ)} {base : List ρ} {n : Nat}

/-- The state after `n` rounds. -/
structure InStage (coll : Collation) (cols : List String) (semiNaive : Bool) (good : Row → Prop)
    (view : Row → ρ) (key : ρ → List String) (term : List ρ → Except String (List ρ))
    (base : List ρ) (n : Nat) (st : CteLoop) : Prop where
  rows : ∀ row ∈ st.accumulated, good row
  input : ∀ row ∈ roundInput semiNaive st, good row
  seen : st.seen = st.accumulated.map (rowKeyText coll cols)
  accumulated : keysOf key (st.accumulated.map view) = stage key term base n
  keys : keysOf key ((roundInput semiNaive st).map view) = stepKeys key term base semiNaive n

/-- The rows so far and the rows of the next round repeat no key. -/
def RepeatsNone (semiNaive : Bool) (view : Row → ρ) (key : ρ → List String) (st : CteLoop) :
    Prop :=
  ((st.accumulated.map view).map key).Nodup ∧
    (((roundInput semiNaive st).map view).map key).Nodup

theorem round_eq_ok {next : Option CteLoop} (h : cte.round coll cols semiNaive st = .ok next) :
    ∃ rows, cte.mappedTerm cols (roundInput semiNaive st) = .ok rows ∧
      ((next = none ∧ freshRows coll cols st rows = []) ∨
        next = some (advance coll cols semiNaive st (freshRows coll cols st rows))) := by
  simp only [round] at h
  cases hterm : cte.mappedTerm cols (roundInput semiNaive st) with
  | error e => simp [hterm] at h
  | ok rows =>
    simp only [hterm] at h
    refine ⟨rows, rfl, ?_⟩
    split at h
    · exact .inl ⟨(Except.ok.inj h).symm, List.isEmpty_iff.mp ‹_›⟩
    · exact .inr (Except.ok.inj h).symm

section

variable (v : Views coll cte cols good view key term base) (hgains : Gains key term)
  (htold : Set.InjOn keysText {k | Derived key term base k})
  (hsuffice : semiNaive → AddedSuffice key term base)
  (h : InStage coll cols semiNaive good view key term base n st) {rows : List Row}
  (hrows : cte.mappedTerm cols (roundInput semiNaive st) = .ok rows)

include v h hrows

theorem term_of_round : term ((roundInput semiNaive st).map view) = .ok (rows.map view) := by
  have hderived : ∀ k ∈ keysOf key ((roundInput semiNaive st).map view),
      Derived key term base k := by
    intro k hk
    rw [h.keys] at hk
    exact derived_of_mem_stage (stepKeys_subset_stage semiNaive n hk)
  rw [← v.terms _ h.input hderived, hrows]
  rfl

include htold in
theorem mem_freshRows_iff {row : Row} :
    row ∈ freshRows coll cols st rows ↔ row ∈ rows ∧ key (view row) ∉ stage key term base n := by
  rw [freshRows, List.mem_filter, h.seen]
  refine and_congr_right fun hrow => ?_
  have hgood := v.answers _ _ hrows row hrow
  have hnew : Derived key term base (key (view row)) := by
    refine .term (fun k (hk : k ∈ keysOf key ((roundInput semiNaive st).map view)) => ?_)
      ⟨_, term_of_round v h hrows, _, List.mem_map_of_mem hrow, rfl⟩
    rw [h.keys] at hk
    exact derived_of_mem_stage (stepKeys_subset_stage semiNaive n hk)
  have hseen : (st.accumulated.map (rowKeyText coll cols)).contains (rowKeyText coll cols row) =
      true ↔ key (view row) ∈ stage key term base n := by
    rw [List.contains_iff_mem, List.mem_map, ← h.accumulated]
    constructor
    · rintro ⟨old, hold, htext⟩
      have hmem : key (view old) ∈ keysOf key (st.accumulated.map view) :=
        ⟨_, List.mem_map_of_mem hold, rfl⟩
      rw [rowKeyText_eq, rowKeyText_eq, v.keys _ hgood, v.keys _ (h.rows old hold)] at htext
      have hderived : Derived key term base (key (view old)) :=
        derived_of_mem_stage (h.accumulated ▸ hmem)
      exact htold hderived hnew htext ▸ hmem
    · rintro ⟨_, hmem, hkey⟩
      obtain ⟨old, hold, rfl⟩ := List.mem_map.mp hmem
      refine ⟨old, hold, ?_⟩
      rw [rowKeyText_eq, rowKeyText_eq, v.keys _ hgood, v.keys _ (h.rows old hold), hkey]
  rw [Bool.not_eq_true', ← Bool.not_eq_true, hseen]

include htold in
theorem keysOf_freshRows :
    keysOf key ((freshRows coll cols st rows).map view) =
      keysOf key (rows.map view) \ stage key term base n := by
  ext k
  simp only [keysOf, Set.mem_ofPred_eq, List.mem_map, Set.mem_sdiff]
  constructor
  · rintro ⟨-, ⟨row, hrow, rfl⟩, rfl⟩
    obtain ⟨hmem, hnew⟩ := (mem_freshRows_iff v htold h hrows).mp hrow
    exact ⟨⟨_, ⟨row, hmem, rfl⟩, rfl⟩, hnew⟩
  · rintro ⟨⟨-, ⟨row, hrow, rfl⟩, rfl⟩, hnew⟩
    exact ⟨_, ⟨row, (mem_freshRows_iff v htold h hrows).mpr ⟨hrow, hnew⟩, rfl⟩, rfl⟩

include hgains htold hsuffice in
theorem InStage.advance :
    InStage coll cols semiNaive good view key term base (n + 1)
      (advance coll cols semiNaive st (freshRows coll cols st rows)) := by
  have hfresh := keysOf_freshRows v htold h hrows
  have hnext := stage_succ_eq hgains hsuffice h.keys (term_of_round v h hrows)
  have hgood : ∀ row ∈ freshRows coll cols st rows, good row := fun row hrow =>
    v.answers _ _ hrows row ((mem_freshRows_iff v htold h hrows).mp hrow).1
  have hall : ∀ row ∈ st.accumulated ++ freshRows coll cols st rows, good row := by
    intro row hrow
    exact (List.mem_append.mp hrow).elim (h.rows row) (hgood row)
  have hkeys : keysOf key ((st.accumulated ++ freshRows coll cols st rows).map view) =
      stage key term base (n + 1) := by
    ext k
    rw [List.map_append, mem_keysOf_append, h.accumulated, hfresh, hnext, Set.mem_union,
      Set.mem_sdiff]
    tauto
  refine ⟨hall, ?_, ?_, hkeys, ?_⟩
  · cases semiNaive with
    | false => exact hall
    | true => exact hgood
  · rw [RecursiveCte.advance, h.seen, List.map_append]
  · cases semiNaive with
    | false => exact hkeys
    | true =>
      refine hfresh.trans ?_
      rw [stepKeys, if_pos rfl, added, hnext, Set.union_sdiff_left]

include htold in
theorem RepeatsNone.advance (hnew : NewOnce key term base semiNaive)
    (hnone : RepeatsNone semiNaive view key st) :
    RepeatsNone semiNaive view key
      (RecursiveCte.advance coll cols semiNaive st (freshRows coll cols st rows)) := by
  have hfresh : (((freshRows coll cols st rows).map view).map key).Nodup := by
    rw [List.nodup_iff_forall_not_duplicate]
    intro k hk
    obtain ⟨_, hmem, rfl⟩ := List.mem_map.mp hk.mem
    obtain ⟨row, hrow, rfl⟩ := List.mem_map.mp hmem
    refine hnew n _ _ h.keys hnone.2 (term_of_round v h hrows) _
      ((mem_freshRows_iff v htold h hrows).mp hrow).2 (hk.mono_sublist ?_)
    exact (List.filter_sublist.map view).map key
  have hall : (((st.accumulated ++ freshRows coll cols st rows).map view).map key).Nodup := by
    rw [List.map_append, List.map_append, List.nodup_append]
    refine ⟨hnone.1, hfresh, fun k hk k' hk' he => ?_⟩
    obtain ⟨_, hmem, rfl⟩ := List.mem_map.mp hk'
    obtain ⟨row, hrow, rfl⟩ := List.mem_map.mp hmem
    refine ((mem_freshRows_iff v htold h hrows).mp hrow).2 ?_
    rw [← h.accumulated]
    exact he ▸ mem_keysOf.mpr hk
  cases semiNaive with
  | false => exact ⟨hall, hall⟩
  | true => exact ⟨hall, hfresh⟩

end

/-- The rounds end at a closed stage; the table has its keys, each once where no step finds a new
one twice. -/
theorem loop_spec (v : Views coll cte cols good view key term base) (hgains : Gains key term)
    (htold : Set.InjOn keysText {k | Derived key term base k})
    (hsuffice : semiNaive → AddedSuffice key term base) {table : List Row} :
    ∀ {fuel n : Nat} {st : CteLoop}, InStage coll cols semiNaive good view key term base n st →
      cte.loop coll cols semiNaive fuel st = .ok table → (∀ row ∈ table, good row) ∧
        (∀ k, k ∈ keysOf key (table.map view) ↔ Derived key term base k) ∧
        (NewOnce key term base semiNaive → RepeatsNone semiNaive view key st →
          ((table.map view).map key).Nodup)
  | 0, _, _, _, hloop => by cases hloop
  | fuel + 1, n, st, h, hloop => by
      rw [loop] at hloop
      cases hround : cte.round coll cols semiNaive st with
      | error e =>
        rw [hround] at hloop
        cases hloop
      | ok next =>
        simp only [hround] at hloop
        obtain ⟨rows, hrows, ⟨rfl, hnone⟩ | rfl⟩ := round_eq_ok hround
        · obtain rfl : st.accumulated = table := Except.ok.inj hloop
          have hfresh := keysOf_freshRows v htold h hrows
          have hnext := stage_succ_eq hgains hsuffice h.keys (term_of_round v h hrows)
          rw [hnone, List.map_nil] at hfresh
          have hold : keysOf key (rows.map view) ⊆ stage key term base n := by
            intro k hk
            by_contra hnew
            have hmem : k ∈ keysOf key ([] : List ρ) := hfresh ▸ ⟨hk, hnew⟩
            simp [keysOf] at hmem
          have hclosed : Closed key term (stage key term base n) := by
            rw [closed_iff]
            rw [Set.union_eq_left.mpr hold] at hnext
            exact (Set.subset_union_right : _ ⊆ stage key term base (n + 1)).trans hnext.le
          refine ⟨h.rows, fun k => ?_, fun _ hrepeats => hrepeats.1⟩
          rw [h.accumulated]
          exact mem_stage_iff_derived hclosed k
        · obtain ⟨hgood, hkeys, honce⟩ := loop_spec v hgains htold hsuffice
            (h.advance v hgains htold hsuffice hrows) hloop
          exact ⟨hgood, hkeys, fun hnew hnone =>
            honce hnew (RepeatsNone.advance v htold h hrows hnew hnone)⟩

end

section

variable {coll : Collation} {cte : RecursiveCte} {base : TableOutput} {table : List Row}

theorem loop_of_execWith {taken : List String} (hbase : cte.base = .ok base)
    (hexec : cte.execWith coll taken = .ok table) :
    cte.loop coll base.cols (semiNaiveOk cte.name cte.statement) 1000 (startLoop coll base) =
      .ok table := by
  simp only [execWith, hbase] at hexec
  split at hexec
  · exact nomatch hexec
  · exact hexec

theorem startLoop_inStage (semiNaive : Bool) :
    InStage coll base.cols semiNaive (fun _ => True) id (columnKeys coll base.cols)
      (cte.mappedTerm base.cols) base.rows 0 (startLoop coll base) := by
  have hkeys : keysOf (columnKeys coll base.cols) (base.rows.map id) =
      keysOf (columnKeys coll base.cols) base.rows := by rw [List.map_id]
  refine ⟨fun _ _ => trivial, fun _ _ => trivial, rfl, hkeys, ?_⟩
  cases semiNaive <;> exact hkeys

end

end RecursiveCte

section

open Fixpoint RecursiveCte

/-- `SELECT item FROM cte JOIN table ON on`; the condition may hold a subquery over the CTE. -/
def joinTerm (outCols : List String) (table : List Row) (on : List Row → Row → Row → Bool)
    (item : Row → Row) (contents : List Row) : Except String TableOutput :=
  .ok ⟨outCols, contents.flatMap fun row => (table.filter (on contents row)).map item⟩

/-- The condition holds of rows with the same keys alike, and of no fewer when the contents
have more keys. -/
def OnGains (coll : Collation) (cols : List String) (on : List Row → Row → Row → Bool) : Prop :=
  ∀ contents contents' row row' right,
    keysOf (columnKeys coll cols) contents ⊆ keysOf (columnKeys coll cols) contents' →
    columnKeys coll cols row = columnKeys coll cols row' →
    on contents row right → on contents' row' right

variable {coll : Collation} {cte : RecursiveCte} {cols outCols : List String} {table : List Row}
  {on : List Row → Row → Row → Bool} {item : Row → Row}

theorem joinTerm_gives_iff (hterm : cte.term = joinTerm outCols table on item)
    {contents : List Row} :
    Gives (columnKeys coll cols) (cte.mappedTerm cols) contents k ↔
      ∃ row ∈ contents, ∃ right ∈ table, on contents row right ∧
        columnKeys coll cols (mapRow cols outCols (item right)) = k := by
  have hrows : cte.mappedTerm cols contents = .ok ((contents.flatMap fun row =>
      (table.filter (on contents row)).map item).map (mapRow cols outCols)) := by
    rw [mappedTerm, hterm]
    rfl
  simp only [Gives, hrows, Except.ok.injEq, exists_eq_left', keysOf, Set.mem_ofPred_eq,
    List.mem_map, List.mem_flatMap, List.mem_filter]
  constructor
  · rintro ⟨-, ⟨-, ⟨row, hrow, right, ⟨hright, hon⟩, rfl⟩, rfl⟩, hk⟩
    exact ⟨row, hrow, right, hright, hon, hk⟩
  · rintro ⟨row, hrow, right, hright, hon, hk⟩
    exact ⟨_, ⟨_, ⟨row, hrow, right, ⟨hright, hon⟩, rfl⟩, rfl⟩, hk⟩

theorem joinTerm_gains (hterm : cte.term = joinTerm outCols table on item)
    (hon : OnGains coll cols on) : Gains (columnKeys coll cols) (cte.mappedTerm cols) := by
  intro contents contents' rows' hsub hrows' k hk
  obtain ⟨row, hrow, right, hright, hmatch, hk⟩ := (joinTerm_gives_iff hterm).mp hk
  obtain ⟨row', hrow', hkey⟩ := hsub ⟨row, hrow, rfl⟩
  obtain ⟨rows, hrows, hmem⟩ := (joinTerm_gives_iff hterm).mpr
    ⟨row', hrow', right, hright, hon _ _ _ _ _ hsub hkey.symm hmatch, hk⟩
  rw [hrows', Except.ok.injEq] at hrows
  exact hrows ▸ hmem

theorem joinTerm_rowByRow {on : Row → Row → Bool}
    (hterm : cte.term = joinTerm outCols table (fun _ => on) item)
    (hon : OnGains coll cols fun _ => on) :
    RowByRow (columnKeys coll cols) (cte.mappedTerm cols) := by
  intro contents k hk
  obtain ⟨row, hrow, right, hright, hmatch, hk⟩ := (joinTerm_gives_iff hterm).mp hk
  refine ⟨_, ⟨row, hrow, rfl⟩, ?_⟩
  rintro contents' ⟨row', hrow', hkey⟩
  exact (joinTerm_gives_iff hterm).mpr ⟨row', hrow', right, hright,
    hon [] [] row row' right (fun _ h => h) hkey.symm hmatch, hk⟩

/-- A join finds no row twice whose right rows give different rows and meet rows of one key
each. -/
theorem joinTerm_newOnce {on : Row → Row → Bool}
    (hterm : cte.term = joinTerm outCols table (fun _ => on) item) (hitems : (table.map fun right =>
      columnKeys coll cols (mapRow cols outCols (item right))).Nodup)
    (hmeet : ∀ row row' right, on row right → on row' right →
      columnKeys coll cols row = columnKeys coll cols row') (base : List Row) (semiNaive : Bool) :
    NewOnce (columnKeys coll cols) (cte.mappedTerm cols) base semiNaive := by
  intro n contents rows _ honce hrows k _
  have hkeys : rows.map (columnKeys coll cols) = contents.flatMap fun row =>
      (table.filter (on row)).map fun right =>
        columnKeys coll cols (mapRow cols outCols (item right)) := by
    rw [mappedTerm, hterm] at hrows
    obtain rfl := Except.ok.inj hrows
    simp only [List.map_flatMap, List.map_map]
    rfl
  suffices hnodup : (rows.map (columnKeys coll cols)).Nodup from
    List.nodup_iff_forall_not_duplicate.mp hnodup k
  rw [hkeys, List.nodup_flatMap]
  refine ⟨fun row _ => (List.filter_sublist.map _).nodup hitems, ?_⟩
  refine (List.pairwise_map.mp honce).imp fun hne => ?_
  intro k' hk hk'
  obtain ⟨right, hright, rfl⟩ := List.mem_map.mp hk
  obtain ⟨right', hright', hsame⟩ := List.mem_map.mp hk'
  rw [List.mem_filter] at hright hright'
  obtain rfl := List.inj_on_of_nodup_map hitems hright'.1 hright.1 hsame
  exact hne (hmeet _ _ _ hright.2 hright'.2)

end

section

open Fixpoint RecursiveCte

def isPrintable (c : Char) : Bool :=
  32 ≤ c.toNat && c.toNat ≤ 126

theorem toNat_toLower_of_isPrintable {c : Char} (h : isPrintable c) : 32 ≤ c.toLower.toNat := by
  simp only [isPrintable, Bool.and_eq_true, decide_eq_true_eq] at h
  delta Char.toLower
  split
  · rename_i hrange
    have hhigh : c.val.toNat ≤ 'Z'.val.toNat := UInt32.le_iff_toNat_le.mp hrange.2
    have hz : 'Z'.val.toNat = 90 := rfl
    have hshift : ('a'.val - 'A'.val).toNat = 32 := rfl
    change 32 ≤ (c.val + ('a'.val - 'A'.val)).toNat
    rw [UInt32.toNat_add, hshift]
    have hc : c.toNat = c.val.toNat := rfl
    omega
  · exact h.1

def printableKey (text : String) : String :=
  String.ofList ((text.toList.filter isPrintable).map Char.toLower)

theorem toNat_of_mem_printableKey {text : String} {c : Char}
    (h : c ∈ (printableKey text).toList) : 32 ≤ c.toNat := by
  rw [printableKey, String.toList_ofList] at h
  obtain ⟨c', hc', rfl⟩ := List.mem_map.mp h
  exact toNat_toLower_of_isPrintable (List.mem_filter.mp hc').2

/-- The collation on printable ASCII texts. -/
def printableCollation : Collation where
  key text := if text = executorNull then "\x02N" else printableKey text
  key_null := fun text h => by
    rw [if_pos rfl] at h
    by_contra hne
    rw [if_neg hne] at h
    have hmem : '\x02' ∈ (printableKey text).toList := by
      rw [h]
      decide
    exact absurd (toNat_of_mem_printableKey hmem) (by decide)

theorem separator_not_mem_cellKey (row : Row) (col : String) :
    '\x01' ∉ (cellKey printableCollation row col).toList := by
  intro h
  simp only [cellKey] at h
  split at h
  · rename_i text _
    simp only [printableCollation] at h
    split at h
    · exact absurd h (by decide)
    · exact absurd (toNat_of_mem_printableKey h) (by decide)
  · exact absurd h (by decide)

theorem columnKeys_eq_of_text {cols : List String} {row row' : Row}
    (h : rowKeyText printableCollation cols row = rowKeyText printableCollation cols row') :
    columnKeys printableCollation cols row = columnKeys printableCollation cols row' := by
  induction cols with
  | nil => rfl
  | cons col cols ih =>
    have hlist := congrArg String.toList h
    simp only [rowKeyText, List.map_cons, String.join_cons, String.toList_append,
      List.append_assoc] at hlist
    have hmark : ("\x01" : String).toList = ['\x01'] := rfl
    rw [hmark, List.singleton_append, List.singleton_append] at hlist
    obtain ⟨hcol, hcols⟩ := LengthPrefix.split_at_mark
      (separator_not_mem_cellKey row col) (separator_not_mem_cellKey row' col) hlist
    have hrest := ih (String.toList_inj.mp hcols)
    simp only [columnKeys] at hrest ⊢
    rw [List.map_cons, List.map_cons, String.toList_inj.mp hcol, hrest]

/-- A row of `link(src, need, dst)`. -/
def linkRow (src need dst : String) : Row :=
  Row.ofCells [("src", src), ("need", need), ("dst", dst)]

/-- `link.src = r.n`. -/
def linkOn (coll : Collation) (row right : Row) : Bool :=
  cellKey coll row "n" == cellKey coll right "src"

/-- `link.src = r.n AND link.need IN (SELECT n FROM r)`. -/
def linkOnGuarded (coll : Collation) (contents : List Row) (row right : Row) : Bool :=
  linkOn coll row right && contents.any fun q => cellKey coll q "n" == cellKey coll right "need"

def linkBase : TableOutput :=
  ⟨["n"], [Row.ofCells [("n", "a")]]⟩

/-- `WITH RECURSIVE r(n) AS (SELECT 'a' UNION SELECT link.dst FROM r JOIN link ON on)`. -/
def linkCte (links : List Row) (on : List Row → Row → Row → Bool) : RecursiveCte where
  name := "r"
  base := .ok linkBase
  statement := some ⟨"r", false, [.column], none, [⟨"link", false, false⟩], false, none, false,
    false⟩
  term := joinTerm ["dst"] links on fun right => Row.ofCells [("dst", cell right "dst")]

theorem linkOn_gains (coll : Collation) : OnGains coll ["n"] fun _ => linkOn coll := by
  intro _ _ row row' right _ hkey h
  have hcell : cellKey coll row "n" = cellKey coll row' "n" := List.head_eq_of_cons_eq hkey
  simp only [linkOn] at h ⊢
  rwa [← hcell]

theorem linkOnGuarded_gains (coll : Collation) : OnGains coll ["n"] (linkOnGuarded coll) := by
  intro contents contents' row row' right hsub hkey h
  rw [linkOnGuarded, Bool.and_eq_true, List.any_eq_true] at h ⊢
  obtain ⟨hon, q, hq, hneed⟩ := h
  refine ⟨linkOn_gains coll [] [] row row' right (fun _ h => h) hkey hon, ?_⟩
  obtain ⟨q', hq', hqkey⟩ := hsub ⟨q, hq, rfl⟩
  have hcell : cellKey coll q' "n" = cellKey coll q "n" := List.head_eq_of_cons_eq hqkey
  exact ⟨q', hq', by rwa [hcell]⟩

/-- The answer by the keys of its rows. -/
def answerKeys (answer : Except String (List Row)) : Option (List (List String)) :=
  answer.toOption.map fun table => table.map (columnKeys printableCollation ["n"])

theorem eq_ok_of_answerKeys {answer : Except String (List Row)} {keys : List (List String)}
    (h : answerKeys answer = some keys) :
    ∃ table, answer = .ok table ∧ table.map (columnKeys printableCollation ["n"]) = keys := by
  cases answer with
  | error e => exact nomatch h
  | ok table => exact ⟨table, rfl, Option.some.inj h⟩

/-- Along the chain `a`, `b`, `c` every round finds one new row. -/
def chainCte : RecursiveCte :=
  linkCte [linkRow "a" "a" "b", linkRow "b" "a" "c"] fun _ => linkOn printableCollation

theorem chainCte_inStages :
    InStages (columnKeys printableCollation ["n"])
      (chainCte.mappedTerm ["n"]) linkBase.rows true where
  told := by
    intro k hk k' hk' htext
    obtain ⟨row, rfl⟩ := exists_key_of_derived hk
    obtain ⟨row', rfl⟩ := exists_key_of_derived hk'
    exact columnKeys_eq_of_text (by rwa [rowKeyText_eq, rowKeyText_eq])
  once := by decide
  newOnce := by
    refine joinTerm_newOnce rfl (by decide) (fun row row' right h h' => ?_) _ _
    simp only [linkOn, beq_iff_eq] at h h'
    exact congrArg (fun key => [key]) (h.trans h'.symm)
  suffice _ := addedSuffice_of_rowByRow (joinTerm_rowByRow rfl (linkOn_gains printableCollation))

/-- `d` is two steps from `a` on two ways. -/
def diamondCte : RecursiveCte :=
  linkCte [linkRow "a" "a" "b", linkRow "a" "a" "c", linkRow "b" "a" "d", linkRow "c" "a" "d"]
    fun _ => linkOn printableCollation

def guardedCte : RecursiveCte :=
  linkCte [linkRow "a" "a" "b", linkRow "b" "a" "c"] (linkOnGuarded printableCollation)

end

end RusqlEngine
