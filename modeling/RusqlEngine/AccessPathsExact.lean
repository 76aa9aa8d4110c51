import RusqlEngine.AccessPaths
import RusqlEngine.GapRange
import RusqlEngine.Library.Joins

/-!
# The answer from an index

An index path names every row that the condition accepts exactly where each of these rows is in
place for a comparison that the path was taken from, or is found under its key all the same. A row
is in place if the comparison is of the value as it is stored and the index puts the value where
the comparison does.
-/

namespace RusqlEngine.Where

open NumericKey UnicodeCollation KeyOrder
open Buffer (Bytes)

namespace AccessPaths

/-! ### What a search finds -/

namespace Search

/-- The literals of a search, each with whether it bounds from below. -/
def bounds : Search → List (Bytes × Bool)
  | .point key => [(key, true), (key, false)]
  | .between start stop => [(start, true), (stop, false)]
  | .range op key => [(key, op.isLowerBound)]

/-- The value is within all the bounds. -/
def finds (table : Table) (kinds : List KeyKind) (search : Search)
    (value : Bytes) : Bool :=
  search.bounds.all fun side =>
    (treeBound kinds side.1 side.2).any fun bound =>
      within table kinds bound side.2 value

end Search

variable {kinds : List KeyKind}

namespace KeyTree

variable {ν : Type} {table : Table} {tree : KeyTree ν} {search : Search}
  {start stop bound : Bytes} {entries : List (Bytes × ν)} {op : RangeOp}

theorem bounds_of_findBetween (h : tree.findBetween table start stop = some entries) :
    ∃ lo hi, treeBound tree.kinds start true = some lo ∧ treeBound tree.kinds stop false = some hi ∧
      entries = tree.root.rangeEntries (cmpKeys table tree.kinds) lo hi := by
  rw [findBetween] at h
  cases hlo : treeBound tree.kinds start true with
  | none =>
    rw [hlo] at h
    exact nomatch h
  | some lo =>
    cases hhi : treeBound tree.kinds stop false with
    | none =>
      rw [hlo, hhi] at h
      exact nomatch h
    | some hi =>
      rw [hlo, hhi] at h
      exact ⟨lo, hi, rfl, rfl, (Option.some.inj h).symm⟩

theorem findBetween_of_find (h : tree.find table (.between start stop) = some entries) :
    tree.findBetween table start stop = some entries := by
  rw [find] at h
  split at h
  next => exact nomatch h
  next => exact h

theorem treeBound_of_find (h : tree.find table search = some entries) :
    ∀ side ∈ search.bounds, ∃ bound,
      treeBound tree.kinds side.1 side.2 = some bound := by
  cases search with
  | point key =>
    obtain ⟨lo, hi, hlo, hhi, -⟩ := bounds_of_findBetween h
    exact List.forall_mem_cons.mpr ⟨⟨lo, hlo⟩, List.forall_mem_singleton.mpr ⟨hi, hhi⟩⟩
  | between start stop =>
    obtain ⟨lo, hi, hlo, hhi, -⟩ := bounds_of_findBetween (findBetween_of_find h)
    exact List.forall_mem_cons.mpr ⟨⟨lo, hlo⟩, List.forall_mem_singleton.mpr ⟨hi, hhi⟩⟩
  | range op key =>
    obtain ⟨bound, hbound, -⟩ := Option.map_eq_some_iff.mp h
    exact List.forall_mem_singleton.mpr ⟨bound, hbound⟩

theorem finds_between {lo hi : Bytes} (hlo : treeBound kinds start true = some lo)
    (hhi : treeBound kinds stop false = some hi) (value : Bytes) :
    (Search.between start stop).finds table kinds value =
      between (cmpKeys table kinds) lo hi value := by
  rw [Search.finds, Search.bounds, List.all_cons, List.all_cons, List.all_nil, hlo, hhi,
    Bool.and_true]
  rfl

theorem finds_range {key : Bytes}
    (hbound : treeBound kinds key op.isLowerBound = some bound) (value : Bytes) :
    (Search.range op key).finds table kinds value =
      within table kinds bound op.isLowerBound value := by
  rw [Search.finds, Search.bounds, List.all_cons, List.all_nil, Bool.and_true, hbound]
  rfl

/-- A search walks to the entries whose keys are within its bounds. -/
def Walks (table : Table) (tree : KeyTree ν) : Prop :=
  ∀ search entries, tree.find table search = some entries →
    entries = tree.root.collectAllKv.filter fun entry => search.finds table tree.kinds entry.1

section

variable [Std.TransCmp (cmpKeys table tree.kinds)]

theorem findBetween_eq (h : tree.root.WellFormed (cmpKeys table tree.kinds))
    (hfind : tree.findBetween table start stop = some entries) :
    entries = tree.root.collectAllKv.filter fun entry =>
      (Search.between start stop).finds table tree.kinds entry.1 := by
  obtain ⟨lo, hi, hlo, hhi, rfl⟩ := bounds_of_findBetween hfind
  rw [BPlusTree.rangeEntries_eq h]
  exact List.filter_congr fun entry _ => (finds_between hlo hhi entry.1).symm

theorem walks_of_wellFormed (h : tree.root.WellFormed (cmpKeys table tree.kinds)) :
    tree.Walks table := by
  intro search entries hfind
  cases search with
  | point key => exact findBetween_eq h hfind
  | between start stop => exact findBetween_eq h (findBetween_of_find hfind)
  | range op key =>
    obtain ⟨bound, hbound, hentries⟩ := Option.map_eq_some_iff.mp hfind
    rw [← hentries, List.filter_congr fun entry _ => finds_range hbound entry.1]
    split
    next hlower =>
      rw [BPlusTree.scanFrom_eq h]
      refine List.filter_congr fun entry _ => ?_
      rw [within, if_pos hlower]
      rfl
    next hlower =>
      rw [BPlusTree.scanTo_eq h]
      refine List.filter_congr fun entry _ => ?_
      rw [within, if_neg hlower]
      rfl

end

/-- The tree of a column holds the rows, each under a key that is as its value. -/
structure Holds (table : Table) (tree : KeyTree ν) (kind : KeyKind)
    (rowsOf : ν → List ByteRow) (col : Bytes) (rows : List ByteRow) : Prop where
  kinds_eq : tree.kinds = [kind]
  walks : tree.Walks table
  rows_perm : ((tree.root.collectAllKv.map (·.2)).flatMap rowsOf).Perm rows
  key_eq : ∀ entry ∈ tree.root.collectAllKv, ∀ row ∈ rowsOf entry.2, ∃ value,
    row.lookup col = some value ∧ cmpKeys table tree.kinds entry.1 value = .eq

end KeyTree

/-! ### The rows of a path -/

section

variable {β γ : Type} {q : β → Bool}

theorem filterMap_filter_perm_iff {show' : β → Option γ} {l : List β}
    (h : ∀ b ∈ l, (show' b).isSome) :
    ((l.filter q).filterMap show').Perm (l.filterMap show') ↔ ∀ b ∈ l, q b := by
  have hlength : ∀ {m : List β}, (∀ b ∈ m, (show' b).isSome) →
      (m.filterMap show').length = m.length := by
    intro m hm
    rw [List.length_filterMap_eq_countP, List.countP_eq_length.mpr hm]
  constructor
  · intro hperm
    have hle := hperm.length_eq
    rw [hlength h, hlength fun b hb => h b (List.mem_of_mem_filter hb)] at hle
    exact List.length_filter_eq_length_iff.mp hle
  · intro hall
    rw [List.filter_eq_self.mpr hall]

end

/-! ### What an accepted row tells -/

variable {cls : ValueClass}

section

variable {ε : Type} (ev : Evaluator ε)

/-- A literal with its class, and whether the comparison has the value from it on or up to it. -/
structure Side where
  literal : Bytes
  right : ValueClass
  lower : Bool

/-- The class of the right side, as it is bound or as it is written. -/
def rightClassOf (cond : Condition ε) (value : Bytes) (quoted : Bool) : ValueClass :=
  if cond.rightClass = .unknown then writtenClass value quoted else cond.rightClass

def sidesOf (cond : Condition ε) : List Side :=
  match cond.value with
  | .literal value quoted =>
    let right := rightClassOf cond value quoted
    match cond.op with
    | .eq => [⟨value, right, true⟩, ⟨value, right, false⟩]
    | .gt | .gte => [⟨value, right, true⟩]
    | .lt | .lte => [⟨value, right, false⟩]
    | _ => []
  | .between lo hi loQuoted hiQuoted =>
    [⟨lo, writtenClass lo loQuoted, true⟩, ⟨hi, writtenClass hi hiQuoted, false⟩]
  | _ => []

/-- The left side as it is compared: a date or an ENUM as a number, a FLOAT as a double. -/
def readText (row : ByteRow) (cond : Condition ε) : Bytes :=
  let val := ev.operandText row true cond.left
  match cond.value with
  | .literal value quoted =>
    let val :=
      if ev.viewed cond.left ∧ rightClassOf cond value quoted = .number then
        ev.viewNumber cond.left val
      else val
    if ev.single cond.left ∧ ev.viewed cond.left = false then ev.widenSingle val else val
  | .between _ _ loQuoted hiQuoted =>
    let val :=
      if ev.viewed cond.left ∧ (loQuoted = false ∨ hiQuoted = false) then
        ev.viewNumber cond.left val
      else val
    if ev.single cond.left then ev.widenSingle val else val
  | _ => val

def asWritten (row : ByteRow) (value : Bytes) (quoted : Bool) : Prop :=
  identLike value quoted = true → (ev.getCol row value).getD value = value

/-- The value is compared as it is stored, and with the literal as it is written. -/
structure ReadsStored (row : ByteRow) (cond : Condition ε) (value : Bytes) : Prop where
  readText_eq : readText ev row cond = value
  literal : ∀ text quoted, cond.value = .literal text quoted → asWritten ev row text quoted

variable {ev} {row : ByteRow} {cond : Condition ε} {value text : Bytes} {quoted : Bool}

theorem tri_eq_true {b : Bool} (h : tri b = .true) : b := by
  cases b with
  | true => rfl
  | false => exact nomatch h

theorem comparesNumbers_of_searchOf {planner : Planner ε} {search : Search}
    (h : planner.searchOf cond = some search) : comparesNumbers cond.op := by
  rw [Planner.searchOf] at h
  cases hop : cond.op <;> rw [hop] at h <;> first | rfl | exact nomatch h

theorem orderHolds_of_accepted {holds : Bool} (hvalue : cond.value = .literal text quoted)
    (hnumbers : comparesNumbers cond.op) (hwritten : asWritten ev row text quoted)
    (h : ev.evalSingle3 row cond = .true)
    (hholds : orderHolds cond.op (compareClassed ev.table (ev.leftClassOf cond)
      (rightClassOf cond text quoted) (readText ev row cond) text) = some holds) : holds := by
  have hright : ev.rightSide row cond (.literal text quoted) =
      some ⟨text, rightClassOf cond text quoted, none, false⟩ := by
    rw [Evaluator.rightSide]
    congr 2
    split
    next hident => exact hwritten hident
    next => rfl
  have hop : cond.op ≠ .isNull ∧ cond.op ≠ .isNotNull := by
    refine ⟨fun hop => ?_, fun hop => ?_⟩ <;> rw [hop] at hholds <;> cases hholds
  rw [Evaluator.evalSingle3, hvalue, hnumbers] at h
  dsimp only at h
  rw [hright] at h
  dsimp only at h
  rw [if_neg hop.1, if_neg hop.2] at h
  split at h
  next => cases h
  next =>
    rw [Evaluator.compareSides] at h
    rw [readText, hvalue] at hholds
    simp only [Option.getD_none, ite_self, Bool.false_eq_true, false_and, if_false] at h
    dsimp only at hholds
    rw [hholds] at h
    exact tri_eq_true h

theorem literal_of_literalOf {planner : Planner ε} {key : Bytes}
    (h : planner.literalOf cond = some key) : ∃ quoted, cond.value = .literal key quoted := by
  rw [Planner.literalOf] at h
  split at h
  next text quoted hvalue =>
    split at h
    next => exact ⟨quoted, Option.some.inj h ▸ hvalue⟩
    next => exact nomatch h
  next => exact nomatch h

/-- A search is of a comparison with a literal, or of a BETWEEN. -/
theorem searchOf_cases {planner : Planner ε} {search : Search}
    (h : planner.searchOf cond = some search) :
    (∃ key quoted, cond.value = .literal key quoted ∧
        ((cond.op = .eq ∧ search = .point key) ∨ (cond.op = .gt ∧ search = .range .gt key) ∨
          (cond.op = .gte ∧ search = .range .gte key) ∨ (cond.op = .lt ∧ search = .range .lt key) ∨
          (cond.op = .lte ∧ search = .range .lte key))) ∨
      ∃ lo hi loQuoted hiQuoted, cond.op = .between ∧
        cond.value = .between lo hi loQuoted hiQuoted ∧ search = .between lo hi := by
  have hliteral {make : Bytes → Search} (h : (planner.literalOf cond).map make = some search) :
      ∃ key quoted, cond.value = .literal key quoted ∧ search = make key := by
    obtain ⟨key, hkey, hmake⟩ := Option.map_eq_some_iff.mp h
    obtain ⟨quoted, hvalue⟩ := literal_of_literalOf hkey
    exact ⟨key, quoted, hvalue, hmake.symm⟩
  rw [Planner.searchOf] at h
  split at h
  case h_1 hop =>
    obtain ⟨key, quoted, hvalue, hsearch⟩ := hliteral h
    exact .inl ⟨key, quoted, hvalue, .inl ⟨hop, hsearch⟩⟩
  case h_2 hop =>
    split at h
    next lo hi loQuoted hiQuoted hvalue =>
      exact .inr ⟨lo, hi, loQuoted, hiQuoted, hop, hvalue, (Option.some.inj h).symm⟩
    next => exact nomatch h
  case h_3 hop =>
    obtain ⟨key, quoted, hvalue, hsearch⟩ := hliteral h
    exact .inl ⟨key, quoted, hvalue, .inr (.inl ⟨hop, hsearch⟩)⟩
  case h_4 hop =>
    obtain ⟨key, quoted, hvalue, hsearch⟩ := hliteral h
    exact .inl ⟨key, quoted, hvalue, .inr (.inr (.inl ⟨hop, hsearch⟩))⟩
  case h_5 hop =>
    obtain ⟨key, quoted, hvalue, hsearch⟩ := hliteral h
    exact .inl ⟨key, quoted, hvalue, .inr (.inr (.inr (.inl ⟨hop, hsearch⟩)))⟩
  case h_6 hop =>
    obtain ⟨key, quoted, hvalue, hsearch⟩ := hliteral h
    exact .inl ⟨key, quoted, hvalue, .inr (.inr (.inr (.inr ⟨hop, hsearch⟩)))⟩
  case h_7 => exact nomatch h

theorem bounds_of_searchOf {planner : Planner ε} {search : Search}
    (h : planner.searchOf cond = some search) :
    search.bounds = (sidesOf cond).map fun side => (side.literal, side.lower) := by
  rcases searchOf_cases h with ⟨key, quoted, hvalue, hop⟩ | ⟨lo, hi, loQuoted, hiQuoted, -, hvalue,
    rfl⟩
  · rw [sidesOf, hvalue]
    rcases hop with ⟨hop, rfl⟩ | ⟨hop, rfl⟩ | ⟨hop, rfl⟩ | ⟨hop, rfl⟩ | ⟨hop, rfl⟩ <;>
      rw [hop] <;> rfl
  · rw [sidesOf, hvalue]
    rfl

theorem onSide_of_betweenSide {bound : Bytes} {lower : Bool}
    (h : ev.betweenSide cls value bound quoted lower = .true) :
    onSide lower
      (compareClassed ev.table cls (writtenClass bound quoted) value bound) := by
  rw [Evaluator.betweenSide] at h
  split at h
  next => cases h
  next =>
    have h := tri_eq_true h
    cases lower with
    | true | false => exact bne_iff_ne.mp h

theorem onSide_of_between {lo hi val : Bytes} {loQuoted hiQuoted : Bool} {cls : ValueClass}
    (h : ev.between cond.left .between cls val lo hi loQuoted hiQuoted = .true) :
    let viewed :=
      if ev.viewed cond.left ∧ (loQuoted = false ∨ hiQuoted = false) then
        ev.viewNumber cond.left val
      else val
    let read := if ev.single cond.left then ev.widenSingle viewed else viewed
    onSide true (compareClassed ev.table cls (writtenClass lo loQuoted) read lo) ∧
      onSide false (compareClassed ev.table cls (writtenClass hi hiQuoted) read hi) := by
  intro viewed read
  rw [Evaluator.between] at h
  change (if ev.betweenSide cls read lo loQuoted true = .false ∨
      ev.betweenSide cls read hi hiQuoted false = .false then Tri.false
    else if ev.betweenSide cls read lo loQuoted true = .true ∧
      ev.betweenSide cls read hi hiQuoted false = .true then .true else .unknown) = .true at h
  split at h
  next => cases h
  next =>
    split at h
    next hboth => exact ⟨onSide_of_betweenSide hboth.1, onSide_of_betweenSide hboth.2⟩
    next => cases h

/-- An accepted comparison puts the value that is read on each of its sides. -/
theorem onSide_of_accepted {planner : Planner ε} {search : Search}
    (hsearch : planner.searchOf cond = some search)
    (hwritten : ∀ text quoted, cond.value = .literal text quoted → asWritten ev row text quoted)
    (h : ev.evalSingle3 row cond = .true) :
    ∀ side ∈ sidesOf cond, onSide side.lower (compareClassed ev.table
      (ev.leftClassOf cond) side.right (readText ev row cond) side.literal) := by
  have hnumbers := comparesNumbers_of_searchOf hsearch
  rcases searchOf_cases hsearch with ⟨key, quoted, hvalue, hop⟩ | ⟨lo, hi, loQuoted, hiQuoted, hop,
    hvalue, -⟩
  · have hholds {holds : Bool} := @orderHolds_of_accepted _ _ _ _ _ _ holds hvalue hnumbers
      (hwritten key quoted hvalue) h
    rw [sidesOf, hvalue]
    rcases hop with ⟨hop, -⟩ | ⟨hop, -⟩ | ⟨hop, -⟩ | ⟨hop, -⟩ | ⟨hop, -⟩ <;> rw [hop] at hholds ⊢
    · have heq := eq_of_beq (hholds rfl)
      refine List.forall_mem_cons.mpr ⟨?_, List.forall_mem_singleton.mpr ?_⟩ <;>
        exact fun hne => by cases heq.symm.trans hne
    · have hgt := eq_of_beq (hholds rfl)
      exact List.forall_mem_singleton.mpr fun hne => by cases hgt.symm.trans hne
    · exact List.forall_mem_singleton.mpr (bne_iff_ne.mp (hholds rfl))
    · have hlt := eq_of_beq (hholds rfl)
      exact List.forall_mem_singleton.mpr fun hne => by cases hlt.symm.trans hne
    · exact List.forall_mem_singleton.mpr (bne_iff_ne.mp (hholds rfl))
  · rw [Evaluator.evalSingle3, hvalue, hnumbers] at h
    dsimp only at h
    rw [sidesOf, hvalue, readText, hvalue]
    split at h
    next => cases h
    next =>
      rw [hop] at h
      obtain ⟨hlow, hhigh⟩ := onSide_of_between h
      exact List.forall_mem_cons.mpr ⟨hlow, List.forall_mem_singleton.mpr hhigh⟩

end

/-! ### Rows in place -/

def AccessPath.isHash : AccessPath → Bool
  | .hashPoint _ _ _ => true
  | _ => false

/-- A value in the bucket of a literal equal to it: the same text, or both are numbers, and an
integer beside another number is the double of it. -/
def keepsBucket (cls : ValueClass) (value literal : Bytes) : Prop :=
  value = literal ∨
    (cls ≠ .text ∧ (NumericText.parseNumber value).isSome ∧
      (NumericText.parseNumber literal).isSome ∧
      (∀ n, NumericText.parseInt64Text value = some n →
        NumericText.parseInt64Text literal = none → exactDouble value n) ∧
      ∀ n, NumericText.parseInt64Text literal = some n →
        NumericText.parseInt64Text value = none → exactDouble literal n)

variable {col : Bytes}

section

variable {ε : Type} (planner : Planner ε) (ev : Evaluator ε)

/-- A comparison as the binder leaves it: it knows the class of its column, and a quoted literal is
a text. -/
structure IsBound (leaf : Condition ε) : Prop where
  leftClass : ∀ column, leaf.left = .column column →
    ev.leftClassOf leaf = planner.colClass (bareCol column.name)
  rightClass : ∀ text, leaf.value = .literal text true →
    leaf.rightClass = .unknown ∨ leaf.rightClass = .text

/-- The path was taken from the comparison, which reads the value as stored, and the index puts the
value where the comparison does. -/
structure InPlace (path : AccessPath) (row : ByteRow) (leaf : Condition ε) (column : Column)
    (value : Bytes) : Prop where
  leafAccess_eq : planner.leafAccess leaf = some path
  left_eq : leaf.left = .column column
  lookup_eq : row.lookup (bareCol column.name) = some value
  reads : ReadsStored ev row leaf value
  place : ∀ side ∈ sidesOf leaf,
    if path.isHash then
      keepsBucket (planner.colClass (bareCol column.name)) value side.literal
    else
      keepsPlace (planner.colClass (bareCol column.name)) side.right value side.literal

variable (table : Table)

/-- The search finds the value of the column in the row. -/
def treeFinds (col : Bytes) (search : Search) (row : ByteRow) : Bool :=
  (row.lookup col).any fun value =>
    search.finds table [keyKindOf (planner.colClass col)] value

/-- The row is where the path searches: within the bounds of a tree, or in the bucket of the key. -/
def found (row : ByteRow) : AccessPath → Bool
  | .pk search => planner.pkCol.any fun col => treeFinds planner table col search row
  | .secondary _ col search => treeFinds planner table col search row
  | .hashPoint _ col key =>
    (row.lookup col).any fun value =>
      normalizeNumericKey table value = normalizeNumericKey table key
  | _ => true

variable {planner ev table} {leaf : Condition ε} {path : AccessPath} {row : ByteRow}
  {column : Column} {value : Bytes} {search : Search}

/-- A path is taken for the column of the comparison, and by its literals. -/
theorem leafAccess_cases (h : planner.leafAccess leaf = some path) :
    ∃ column, leaf.left = .column column ∧ planner.indexAnswers (bareCol column.name) leaf ∧
      ((∃ search, path = .pk search ∧ planner.pkCol = some (bareCol column.name) ∧
          planner.searchOf leaf = some search) ∨
        (∃ index key, path = .hashPoint index (bareCol column.name) key ∧
          (index, bareCol column.name) ∈ planner.hashIndexMeta ∧ leaf.op = .eq ∧
          planner.literalOf leaf = some key) ∨
        (∃ index search, path = .secondary index (bareCol column.name) search ∧
          (index, bareCol column.name) ∈ planner.indexMeta ∧
          planner.searchOf leaf = some search) ∨
        ∃ index pat, path = .likePrefix index (bareCol column.name) pat) := by
  have hmeta {entries : List (Bytes × Bytes)} {index col : Bytes}
      (h : (entries.find? fun entry => entry.2 = col).map (·.1) = some index) :
      (index, col) ∈ entries := by
    obtain ⟨⟨index', col'⟩, hfind, rfl⟩ := Option.map_eq_some_iff.mp h
    have hcol := List.find?_some hfind
    obtain rfl : col' = col := of_decide_eq_true hcol
    exact List.mem_of_find?_eq_some hfind
  rw [Planner.leafAccess] at h
  split at h
  next => exact nomatch h
  next column hleft =>
    refine ⟨column, hleft, ?_⟩
    dsimp only at h
    split at h
    next hanswers =>
      refine ⟨hanswers, ?_⟩
      rcases Option.or_eq_some_iff.mp h with h | ⟨-, h⟩
      · split at h
        next hpk =>
          obtain ⟨search, hsearch, rfl⟩ := Option.map_eq_some_iff.mp h
          exact .inl ⟨search, rfl, hpk, hsearch⟩
        next => exact nomatch h
      · refine .inr ?_
        rcases Option.or_eq_some_iff.mp h with h | ⟨-, h⟩
        · split at h
          next hop =>
            obtain ⟨key, hkey, h⟩ := Option.bind_eq_some_iff.mp h
            obtain ⟨index, hindex, rfl⟩ := Option.map_eq_some_iff.mp h
            exact .inl ⟨index, key, rfl, hmeta hindex, hop, hkey⟩
          next => exact nomatch h
        · refine .inr ?_
          obtain ⟨index, hindex, h⟩ := Option.bind_eq_some_iff.mp h
          rw [Planner.secondaryAccess] at h
          split at h
          next =>
            obtain ⟨pat, -, rfl⟩ := Option.map_eq_some_iff.mp h
            exact .inr ⟨index, pat, rfl⟩
          next =>
            obtain ⟨search, hsearch, rfl⟩ := Option.map_eq_some_iff.mp h
            exact .inl ⟨index, search, rfl, hmeta hindex, hsearch⟩
    next => exact nomatch h

theorem valueAnswers_classes {text : Bytes} {quoted : Bool}
    (h : Planner.valueAnswers cls text quoted) :
    (cls = .text → quoted) ∧ (cls = .number → (NumericText.parseNumber text).isSome) := by
  rw [Planner.valueAnswers, Bool.and_eq_true, Bool.not_eq_true', Bool.not_eq_true'] at h
  obtain ⟨hnumber, htext⟩ := h
  refine ⟨?_, ?_⟩
  · rintro rfl
    simpa using htext
  · rintro rfl
    simpa [Option.isSome_iff_ne_none] using hnumber

theorem indexAnswers_value (hanswers : planner.indexAnswers col leaf)
    (hcls : planner.colClass col ≠ .unknown) (hop : leaf.op ≠ .like) :
    match leaf.value with
    | .literal text quoted => Planner.valueAnswers (planner.colClass col) text quoted = true
    | .between lo hi loQuoted hiQuoted =>
      Planner.valueAnswers (planner.colClass col) lo loQuoted = true ∧
        Planner.valueAnswers (planner.colClass col) hi hiQuoted = true
    | _ => True := by
  rw [Planner.indexAnswers, if_neg hcls, if_neg hop] at hanswers
  revert hanswers
  cases leaf.value with
  | literal text quoted => exact id
  | between lo hi loQuoted hiQuoted => exact (Bool.and_eq_true _ _).mp
  | literalList values => exact fun _ => trivial
  | arith e => exact fun _ => trivial
  | subquery => exact fun _ => trivial

/-- The literals of a path compare with the column as its class does. -/
theorem side_classes (hbound : IsBound planner ev leaf)
    (hanswers : planner.indexAnswers (bareCol column.name) leaf)
    (hsearch : planner.searchOf leaf = some search) :
    ∀ side ∈ sidesOf leaf,
      (planner.colClass (bareCol column.name) = .text → side.right = .text) ∧
        (planner.colClass (bareCol column.name) = .number →
          (NumericText.parseNumber side.literal).isSome) := by
  by_cases hcls : planner.colClass (bareCol column.name) = .unknown
  · intro side _
    rw [hcls]
    exact ⟨nofun, nofun⟩
  have hnumbers := comparesNumbers_of_searchOf hsearch
  have hop : leaf.op ≠ .like := by
    intro hop
    rw [hop] at hnumbers
    exact absurd hnumbers (by decide)
  have hvalue := indexAnswers_value hanswers hcls hop
  rcases searchOf_cases hsearch with ⟨key, quoted, hleaf, hop⟩ | ⟨lo, hi, loQuoted, hiQuoted, -,
    hleaf, -⟩
  · rw [hleaf] at hvalue
    obtain ⟨htext, hnumber⟩ := valueAnswers_classes hvalue
    have hside : (planner.colClass (bareCol column.name) = .text →
        rightClassOf leaf key quoted = .text) ∧
        (planner.colClass (bareCol column.name) = .number →
          (NumericText.parseNumber key).isSome) := by
      refine ⟨fun h => ?_, hnumber⟩
      obtain rfl := htext h
      rw [rightClassOf]
      rcases hbound.rightClass key hleaf with hright | hright
      · rw [if_pos hright]
        rfl
      · rw [hright]
        rfl
    rw [sidesOf, hleaf]
    rcases hop with ⟨hop, -⟩ | ⟨hop, -⟩ | ⟨hop, -⟩ | ⟨hop, -⟩ | ⟨hop, -⟩ <;> rw [hop]
    · exact List.forall_mem_cons.mpr ⟨hside, List.forall_mem_singleton.mpr hside⟩
    all_goals exact List.forall_mem_singleton.mpr hside
  · rw [hleaf] at hvalue
    obtain ⟨hloText, hloNumber⟩ := valueAnswers_classes hvalue.1
    obtain ⟨hhiText, hhiNumber⟩ := valueAnswers_classes hvalue.2
    rw [sidesOf, hleaf]
    refine List.forall_mem_cons.mpr ⟨⟨fun h => ?_, hloNumber⟩,
      List.forall_mem_singleton.mpr ⟨fun h => ?_, hhiNumber⟩⟩
    · rw [writtenClass, if_pos (hloText h)]
    · rw [writtenClass, if_pos (hhiText h)]

theorem searchOf_eq_point {key : Bytes} (hop : leaf.op = .eq)
    (hkey : planner.literalOf leaf = some key) : planner.searchOf leaf = some (.point key) := by
  rw [Planner.searchOf, hop, hkey]
  rfl

theorem eq_of_onSide {order : Ordering} (hlower : onSide true order)
    (hupper : onSide false order) : order = .eq := by
  cases order with
  | lt => exact absurd rfl hlower
  | eq => rfl
  | gt => exact absurd rfl hupper

theorem normalizeNumericKey_of_equal {right : ValueClass} {literal : Bytes}
    (hplace : keepsBucket cls value literal)
    (h : compareClassed ev.table cls right value literal = .eq) :
    normalizeNumericKey ev.table value =
      normalizeNumericKey ev.table literal := by
  rcases hplace with rfl | ⟨hcls, hvalue, hliteral, hexact, hexact'⟩
  · rfl
  · have hcompare : compareClassed ev.table cls right value literal =
        NumericText.compareNumbers value literal := by
      rw [compareClassed]
      split
      next => rfl
      next => exact if_pos ⟨fun htext => hcls htext.1, hvalue, hliteral⟩
    exact (numbers_iff hvalue hliteral (hcompare ▸ h)).mpr ⟨hexact, hexact'⟩

/-- A row in place that the comparison accepts is found. -/
theorem found_of_inPlace (hbound : IsBound planner ev leaf)
    (hplace : InPlace planner ev path row leaf column value)
    (haccepts : ev.evalSingle3 row leaf = .true)
    (hbounds : ∀ search, path = .pk search ∨ (∃ index col, path = .secondary index col search) →
      ∀ side ∈ search.bounds, ∃ bound, treeBound
        [keyKindOf (planner.colClass (bareCol column.name))] side.1 side.2 = some bound) :
    found planner ev.table row path := by
  obtain ⟨haccess, hleft, hlookup, ⟨hread, hwritten⟩, hsides⟩ := hplace
  obtain ⟨column', hleft', hanswers, hcases⟩ := leafAccess_cases haccess
  obtain rfl : column = column' := Operand.column.inj (hleft.symm.trans hleft')
  have hclass := hbound.leftClass column hleft
  have htree {search : Search} (hsearch : planner.searchOf leaf = some search)
      (hhash : path.isHash = false)
      (hbounds : ∀ side ∈ search.bounds, ∃ bound, treeBound
        [keyKindOf (planner.colClass (bareCol column.name))] side.1 side.2 = some bound) :
      treeFinds planner ev.table (bareCol column.name) search row := by
    have hside := onSide_of_accepted hsearch hwritten haccepts
    have hclasses := side_classes hbound hanswers hsearch
    rw [treeFinds, hlookup]
    refine List.all_eq_true.mpr fun bounds hmem => ?_
    obtain ⟨bound, hfound⟩ := hbounds bounds hmem
    rw [bounds_of_searchOf hsearch] at hmem
    obtain ⟨side, hside', rfl⟩ := List.mem_map.mp hmem
    have hkeeps := hsides side hside'
    rw [if_neg (hhash ▸ Bool.false_ne_true)] at hkeeps
    have hon := hside side hside'
    rw [hread, hclass] at hon
    rw [hfound]
    obtain ⟨htext, hnumber⟩ := hclasses side hside'
    exact within_of_onSide hkeeps htext hnumber hfound hon
  rcases hcases with ⟨search, rfl, hpk, hsearch⟩ | ⟨index, key, rfl, -, hop, hkey⟩ |
    ⟨index, search, rfl, -, hsearch⟩ | ⟨index, pat, rfl⟩
  · rw [found, hpk]
    exact htree hsearch rfl (hbounds search (.inl rfl))
  · have hsearch := searchOf_eq_point hop hkey
    obtain ⟨quoted, hvalue⟩ := literal_of_literalOf hkey
    have hon := onSide_of_accepted hsearch hwritten haccepts
    rw [sidesOf, hvalue, hop] at hon hsides
    obtain ⟨hlower, hupper⟩ := List.forall_mem_cons.mp hon
    have hupper := List.forall_mem_singleton.mp hupper
    rw [hread, hclass] at hlower hupper
    have heq := eq_of_onSide hlower hupper
    rw [found, hlookup, Option.any_some, decide_eq_true_eq]
    exact normalizeNumericKey_of_equal (hsides _ List.mem_cons_self) heq
  · exact htree hsearch rfl (hbounds search (.inr ⟨index, _, rfl⟩))
  · rfl

end

/-! ### The answer -/

section

variable {ε : Type} (planner : Planner ε) (reader : Reader ε) (store : Store)

def Reader.live : List ByteRow :=
  store.rows.filter reader.visible

/-- The trees and hash indexes of the table hold exactly the rows that are read, none of whose
versions has ended. -/
structure Indexed : Prop where
  pk : ∀ tree col, store.pkTree = some tree → planner.pkCol = some col →
    tree.Holds reader.ev.table (keyKindOf (planner.colClass col)) (fun row => [row]) col
      (reader.live store)
  secondary : ∀ index col tree, (index, col) ∈ planner.indexMeta →
    store.indexes index = some tree →
    tree.Holds reader.ev.table (keyKindOf (planner.colClass col)) id col
      (reader.live store)
  hash : ∀ index col buckets, (index, col) ∈ planner.hashIndexMeta →
    store.hashIndexes index = some buckets → ∀ key, (buckets key).Perm
      ((reader.live store).filter fun row => (row.lookup col).any fun value =>
        normalizeNumericKey reader.ev.table value = key)
  latest : ∀ row ∈ reader.live store, (row.lookup xmaxKey).getD [0x30] = [0x30]

/-- The names that a comparison looks up in a row. -/
def namesOf (leaf : Condition ε) : List Bytes :=
  (match leaf.left with
    | .column column => [column.name]
    | .expr _ => []) ++
  match leaf.value with
  | .literal value _ => [value]
  | _ => []

/-- A covering read is of a single comparison, whose names are found in the row of only the column
as in the whole row. -/
def Covers (covers : Bool) : Prop :=
  covers = true → ∀ index col search,
    planner.plan (some reader.condition) = .secondary index col search →
    ∃ leaf, reader.condition = .leaf leaf ∧
      ∀ row ∈ reader.live store, ∀ value, row.lookup col = some value → ∀ name ∈ namesOf leaf,
        reader.ev.getCol (Finmap.singleton col value) name = reader.ev.getCol row name

/-- What is shown of a row: the whole of it, or the column of a covering read. -/
def showRow (covers : Bool) : AccessPath → ByteRow → Option ByteRow
  | .secondary _ col search =>
    match Reader.coveringCol covers col search with
    | some col => Reader.coveringRow col
    | none => some
  | _ => some

variable {planner reader store} {path : AccessPath} {covers : Bool} {row : ByteRow}

theorem chooseAccess_of_not_leaf : ∀ {expr : CondExpr ε}, (∀ leaf, expr ≠ .leaf leaf) →
    planner.chooseAccess (some expr) = .composite ∨ planner.chooseAccess (some expr) = .seqScan
  | .leaf leaf, h => absurd rfl (h leaf)
  | .and _ _, _ | .or _ _, _ | .not _, _ => ite_eq_or_eq ..

theorem plan_of_not_leaf : ∀ {expr : CondExpr ε}, (∀ leaf, expr ≠ .leaf leaf) →
    planner.plan (some expr) =
      if planner.chooseAccess (some expr) = .seqScan then
        (planner.pointLeafOfAnd expr).getD (planner.chooseAccess (some expr))
      else planner.chooseAccess (some expr)
  | .leaf leaf, h => absurd rfl (h leaf)
  | .and _ _, _ => rfl
  | .or _ _, _ => rfl
  | .not _, _ => rfl

theorem leafAccess_of_chooseAccess {leaf : Condition ε} (hscan : path ≠ .seqScan)
    (hcomposite : path ≠ .composite) (h : planner.chooseAccess (some (.leaf leaf)) = path) :
    planner.leafAccess leaf = some path := by
  rw [Planner.chooseAccess] at h
  cases haccess : planner.leafAccess leaf with
  | some path' =>
    rw [haccess] at h
    exact congrArg some h
  | none =>
    rw [haccess, Option.getD_none] at h
    split at h
    next => exact absurd h.symm hcomposite
    next => exact absurd h.symm hscan

theorem leafAccess_of_plan {expr : CondExpr ε} (hplan : planner.plan (some expr) = path)
    (hscan : path ≠ .seqScan) (hcomposite : path ≠ .composite) :
    ∃ leaf ∈ expr.andLeaves, planner.leafAccess leaf = some path := by
  by_cases hexpr : ∃ leaf, expr = .leaf leaf
  · obtain ⟨leaf, rfl⟩ := hexpr
    exact ⟨leaf, List.mem_singleton.mpr rfl, leafAccess_of_chooseAccess hscan hcomposite hplan⟩
  · have hexpr : ∀ leaf, expr ≠ .leaf leaf := fun leaf h => hexpr ⟨leaf, h⟩
    rw [plan_of_not_leaf hexpr] at hplan
    split at hplan
    next hseq =>
      cases hpoint : planner.pointLeafOfAnd expr with
      | none =>
        rw [hpoint, hseq] at hplan
        exact absurd hplan.symm hscan
      | some path' =>
        rw [hpoint] at hplan
        obtain rfl : path' = path := hplan
        obtain ⟨leaf, hmem, h⟩ := List.mem_map.mp (List.mem_of_find?_eq_some hpoint)
        exact ⟨leaf, hmem, leafAccess_of_chooseAccess hscan hcomposite h⟩
    next hseq =>
      rcases chooseAccess_of_not_leaf hexpr with h | h
      · exact absurd (hplan.symm.trans h) hcomposite
      · exact absurd h hseq

theorem finds_congr {table : Table} {search : Search} {a b : Bytes}
    (h : cmpKeys table kinds a b = .eq) :
    search.finds table kinds a = search.finds table kinds b := by
  have hwithin (bound : Bytes) (lower : Bool) :
      within table kinds bound lower a =
        within table kinds bound lower b := by
    rw [within, within, Comparison.Congruent.congr_left h, Comparison.Congruent.congr_right h]
  rw [Search.finds, Search.finds]
  refine congrArg (search.bounds.all ·) (funext fun side => ?_)
  exact congrArg (Option.any · _) (funext fun bound => hwithin bound side.2)

/-- What a search of a tree of the rows gives. -/
theorem rows_of_find {ν : Type} {tree : KeyTree ν} {rowsOf : ν → List ByteRow} {search : Search}
    {entries : List (Bytes × ν)}
    (hholds : tree.Holds reader.ev.table (keyKindOf (planner.colClass col)) rowsOf col
      (reader.live store)) (hfind : tree.find reader.ev.table search = some entries) :
    ((entries.map (·.2)).flatMap rowsOf).Perm
      ((reader.live store).filter (treeFinds planner reader.ev.table col search)) := by
  have hfinds : ∀ entry ∈ tree.root.collectAllKv, ∀ row ∈ rowsOf entry.2,
      treeFinds planner reader.ev.table col search row =
        search.finds reader.ev.table tree.kinds entry.1 := by
    intro entry hentry row hrow
    obtain ⟨value, hlookup, hcmp⟩ := hholds.key_eq entry hentry row hrow
    rw [treeFinds, hlookup, ← hholds.kinds_eq]
    exact (finds_congr hcmp).symm
  rw [hholds.walks search entries hfind, List.flatMap_map, ← Joins.flatMap_filter hfinds,
    ← List.flatMap_map]
  exact hholds.rows_perm.filter _

/-! ### Covering reads -/

theorem evalSingle3_congr {ev : Evaluator ε} {row' : ByteRow} {leaf : Condition ε}
    {search : Search} {column : Column} (hleft : leaf.left = .column column)
    (hsearch : planner.searchOf leaf = some search)
    (h : ∀ name ∈ namesOf leaf, ev.getCol row name = ev.getCol row' name) :
    ev.evalSingle3 row leaf = ev.evalSingle3 row' leaf := by
  rw [namesOf, hleft] at h
  have hcol := h column.name (List.mem_append_left _ (List.mem_singleton.mpr rfl))
  have hleft (exact' : Bool) :
      ev.operandText row exact' leaf.left = ev.operandText row' exact' leaf.left := by
    rw [hleft, Evaluator.operandText, Evaluator.operandText, Evaluator.columnText,
      Evaluator.columnText, hcol]
  rcases searchOf_cases hsearch with ⟨key, quoted, hvalue, -⟩ | ⟨lo, hi, loQuoted, hiQuoted, -,
    hvalue, -⟩
  · rw [hvalue] at h
    have hkey := h key (List.mem_append_right _ (List.mem_singleton.mpr rfl))
    have hright : ev.rightSide row leaf (.literal key quoted) =
        ev.rightSide row' leaf (.literal key quoted) := by
      rw [Evaluator.rightSide, Evaluator.rightSide, hkey]
    rw [Evaluator.evalSingle3, Evaluator.evalSingle3, hvalue, hleft]
    dsimp only
    rw [hright]
  · rw [Evaluator.evalSingle3, Evaluator.evalSingle3, hvalue, hleft]

theorem coveringCol_eq_some {col' : Bytes} {search : Search}
    (h : Reader.coveringCol covers col search = some col') : covers ∧ col' = col := by
  have hif {b : Bool} (h : (if b then some col else none) = some col') :
      b ∧ col' = col := by
    split at h
    next hb => exact ⟨hb, (Option.some.inj h).symm⟩
    next => exact nomatch h
  cases search with
  | between start stop => exact nomatch h
  | point key => exact hif h
  | range op key => exact hif h

theorem accepts_singleton {index value : Bytes} {search : Search}
    (hcovers : Covers planner reader store true)
    (hplan : planner.plan (some reader.condition) = .secondary index col search)
    (hrow : row ∈ reader.live store) (hvalue : row.lookup col = some value) :
    reader.accepts (Finmap.singleton col value) = reader.accepts row := by
  obtain ⟨leaf, hleaf, hnames⟩ := hcovers rfl index col search hplan
  rw [hleaf] at hplan
  obtain ⟨leaf', hmem, haccess⟩ := leafAccess_of_plan hplan nofun nofun
  obtain rfl : leaf' = leaf := List.mem_singleton.mp hmem
  obtain ⟨column, hleft, -, hcases⟩ := leafAccess_cases haccess
  have hsearch : ∃ search, planner.searchOf leaf' = some search := by
    rcases hcases with ⟨search, -, -, hsearch⟩ | ⟨-, key, -, -, hop, hkey⟩ |
      ⟨-, search, -, -, hsearch⟩ | ⟨_, _, h⟩
    · exact ⟨search, hsearch⟩
    · exact ⟨.point key, searchOf_eq_point hop hkey⟩
    · exact ⟨search, hsearch⟩
    · exact nomatch h
  obtain ⟨search', hsearch⟩ := hsearch
  rw [Reader.accepts, Reader.accepts, hleaf, Evaluator.evalCondexpr, Evaluator.evalCondexpr,
    Evaluator.evalCond3, Evaluator.evalCond3,
    evalSingle3_congr hleft hsearch (hnames row hrow value hvalue)]

/-- The rows of an entry are shown as those of the scan are. -/
theorem addBucket_eq {index : Bytes} {search : Search} {rows : List ByteRow}
    (hindexed : Indexed planner reader store) (hcovers : Covers planner reader store covers)
    (hplan : planner.plan (some reader.condition) = .secondary index col search)
    (hrows : ∀ row ∈ rows, row ∈ reader.live store)
    (hcol : ∀ row ∈ rows, ∃ value, row.lookup col = some value) :
    reader.addBucket (Reader.coveringCol covers col search) rows =
      (rows.filter reader.rowOk).filterMap (showRow covers (.secondary index col search)) := by
  cases hcovering : Reader.coveringCol covers col search with
  | none =>
    rw [showRow, hcovering]
    exact List.filterMap_some.symm
  | some col' =>
    obtain ⟨rfl, rfl⟩ := coveringCol_eq_some hcovering
    rw [showRow, hcovering, List.filterMap_filter]
    refine List.filterMap_congr fun row hmem => ?_
    obtain ⟨value, hvalue⟩ := hcol row hmem
    have hlive := hrows row hmem
    have hvisible : reader.visible row := (List.mem_filter.mp hlive).2
    rw [Reader.covered, if_pos (hindexed.latest row hlive), Reader.coveringRow, hvalue,
      Option.map_some, Option.filter_some, accepts_singleton hcovers hplan hlive hvalue,
      Reader.rowOk, hvisible, Bool.true_and]
    change _ = if reader.accepts row then Reader.coveringRow col' row else none
    rw [Reader.coveringRow, hvalue]
    rfl

variable {answer : List ByteRow}

theorem answer_perm (hindexed : Indexed planner reader store)
    (hcovers : Covers planner reader store covers)
    (hplan : planner.plan (some reader.condition) = path)
    (hanswer : reader.indexAnswer store covers path = some answer) :
    answer.Perm (((reader.scan store).filter fun row =>
      found planner reader.ev.table row path).filterMap (showRow covers path)) := by
  have hscan : ∀ q : ByteRow → Bool, ((reader.live store).filter q).filter reader.rowOk =
      (reader.scan store).filter q := by
    intro q
    rw [Reader.live, Reader.scan, List.filter_filter, List.filter_filter, List.filter_filter]
    refine List.filter_congr fun row _ => ?_
    rw [Reader.rowOk]
    cases reader.visible row <;> cases reader.accepts row <;> cases q row <;> rfl
  have hcases : path ≠ .seqScan ∧ path ≠ .composite := by
    refine ⟨?_, ?_⟩ <;> rintro rfl <;> exact nomatch hanswer
  obtain ⟨leaf, -, haccess⟩ := leafAccess_of_plan hplan hcases.1 hcases.2
  obtain ⟨column, hleft, -, hpath⟩ := leafAccess_cases haccess
  rcases hpath with ⟨search, rfl, hpk, hsearch⟩ | ⟨index, key, rfl, hmeta, hop, hkey⟩ |
    ⟨index, search, rfl, hmeta, hsearch⟩ | ⟨index, pat, rfl⟩
  · obtain ⟨tree, htree, hanswer⟩ := Option.bind_eq_some_iff.mp hanswer
    obtain ⟨entries, hfind, rfl⟩ := Option.map_eq_some_iff.mp hanswer
    have hrows := rows_of_find (hindexed.pk tree _ htree hpk) hfind
    rw [List.flatMap_singleton'] at hrows
    have hfound : (fun row => found planner reader.ev.table row (.pk search)) =
        treeFinds planner reader.ev.table (bareCol column.name) search := by
      funext row
      rw [found, hpk]
      rfl
    rw [hfound, ← hscan]
    exact (hrows.filter reader.rowOk).trans (.of_eq List.filterMap_some.symm)
  · obtain ⟨buckets, hbuckets, rfl⟩ := Option.map_eq_some_iff.mp hanswer
    have hrows := hindexed.hash index _ buckets hmeta hbuckets
      (normalizeNumericKey reader.ev.table key)
    rw [← hscan]
    exact (hrows.filter reader.rowOk).trans (.of_eq List.filterMap_some.symm)
  · obtain ⟨tree, htree, hanswer⟩ := Option.bind_eq_some_iff.mp hanswer
    obtain ⟨entries, hfind, rfl⟩ := Option.map_eq_some_iff.mp hanswer
    have hholds := hindexed.secondary index _ tree hmeta htree
    have hrows := rows_of_find hholds hfind
    rw [List.flatMap_id] at hrows
    have hbucket : ∀ bucket ∈ entries.map (·.2),
        reader.addBucket (Reader.coveringCol covers (bareCol column.name) search) bucket =
          (bucket.filter reader.rowOk).filterMap
            (showRow covers (.secondary index (bareCol column.name) search)) := by
      intro bucket hmem
      obtain ⟨entry, hentry, rfl⟩ := List.mem_map.mp hmem
      have hall : entry ∈ tree.root.collectAllKv := by
        rw [hholds.walks search entries hfind] at hentry
        exact List.mem_of_mem_filter hentry
      refine addBucket_eq hindexed hcovers hplan (fun row hrow => ?_) fun row hrow => ?_
      · refine hholds.rows_perm.mem_iff.mp (List.mem_flatMap.mpr ⟨entry.2, ?_, hrow⟩)
        exact List.mem_map.mpr ⟨entry, hall, rfl⟩
      · obtain ⟨value, hvalue, -⟩ := hholds.key_eq entry hall row hrow
        exact ⟨value, hvalue⟩
    rw [List.flatMap_congr hbucket, ← hscan, ← List.filterMap_flatMap, ← List.filter_flatMap,
      List.flatMap_id']
    exact (hrows.filter reader.rowOk).filterMap _
  · exact nomatch hanswer

/-- A path that gives an answer can carry out the bounds it searches by. -/
theorem treeBound_of_answer (hindexed : Indexed planner reader store) {leaf : Condition ε}
    {column : Column} (haccess : planner.leafAccess leaf = some path)
    (hleft : leaf.left = .column column)
    (hanswer : reader.indexAnswer store covers path = some answer) {search : Search}
    (hpath : path = .pk search ∨ ∃ index col, path = .secondary index col search) :
    ∀ side ∈ search.bounds, ∃ bound, treeBound
      [keyKindOf (planner.colClass (bareCol column.name))] side.1 side.2 =
        some bound := by
  obtain ⟨column', hleft', -, hcases⟩ := leafAccess_cases haccess
  obtain rfl : column = column' := Operand.column.inj (hleft.symm.trans hleft')
  rcases hpath with rfl | ⟨index, col, rfl⟩
  · obtain ⟨tree, htree, hanswer⟩ := Option.bind_eq_some_iff.mp hanswer
    obtain ⟨entries, hfind, -⟩ := Option.map_eq_some_iff.mp hanswer
    rcases hcases with ⟨_, -, hpk, -⟩ | ⟨_, _, h, -⟩ | ⟨_, _, h, -⟩ | ⟨_, _, h⟩
    · rw [← (hindexed.pk tree _ htree hpk).kinds_eq]
      exact KeyTree.treeBound_of_find hfind
    · exact nomatch h
    · exact nomatch h
    · exact nomatch h
  · obtain ⟨tree, htree, hanswer⟩ := Option.bind_eq_some_iff.mp hanswer
    obtain ⟨entries, hfind, -⟩ := Option.map_eq_some_iff.mp hanswer
    rcases hcases with ⟨_, h, -⟩ | ⟨_, _, h, -⟩ | ⟨_, _, h, hmeta, -⟩ | ⟨_, _, h⟩
    · exact nomatch h
    · exact nomatch h
    · obtain ⟨rfl, rfl, -⟩ := AccessPath.secondary.inj h
      rw [← (hindexed.secondary index _ tree hmeta htree).kinds_eq]
      exact KeyTree.treeBound_of_find hfind
    · exact nomatch h

theorem showRow_isSome (hindexed : Indexed planner reader store)
    (hplan : planner.plan (some reader.condition) = path)
    (hanswer : reader.indexAnswer store covers path = some answer)
    (hrow : row ∈ reader.scan store) : (showRow covers path row).isSome := by
  have hcases : path ≠ .seqScan ∧ path ≠ .composite := by
    refine ⟨?_, ?_⟩ <;> rintro rfl <;> exact nomatch hanswer
  obtain ⟨leaf, -, haccess⟩ := leafAccess_of_plan hplan hcases.1 hcases.2
  obtain ⟨column, -, -, hpath⟩ := leafAccess_cases haccess
  rcases hpath with ⟨search, rfl, -, -⟩ | ⟨index, key, rfl, -, -, -⟩ |
    ⟨index, search, rfl, hmeta, -⟩ | ⟨index, pat, rfl⟩
  · rfl
  · rfl
  · obtain ⟨tree, htree, -⟩ := Option.bind_eq_some_iff.mp hanswer
    have hholds := hindexed.secondary index _ tree hmeta htree
    have hlive : row ∈ reader.live store := by
      obtain ⟨hmem, hok⟩ := List.mem_filter.mp hrow
      exact List.mem_filter.mpr ⟨hmem, (Bool.and_eq_true _ _ ▸ hok).1⟩
    obtain ⟨bucket, hbucket, hmem⟩ := List.mem_flatMap.mp (hholds.rows_perm.mem_iff.mpr hlive)
    obtain ⟨entry, hentry, rfl⟩ := List.mem_map.mp hbucket
    obtain ⟨value, hvalue, -⟩ := hholds.key_eq entry hentry row hmem
    cases hcovering : Reader.coveringCol covers (bareCol column.name) search with
    | none =>
      rw [showRow, hcovering]
      rfl
    | some col =>
      obtain ⟨-, rfl⟩ := coveringCol_eq_some hcovering
      rw [showRow, hcovering]
      change (Reader.coveringRow (bareCol column.name) row).isSome = true
      rw [Reader.coveringRow, hvalue]
      rfl
  · rfl

/-- An index path gives the answer of the scan exactly where every row that the condition accepts
is in place for a comparison that the path was taken from, or is found all the same. -/
theorem indexAnswer_iff {answer : List ByteRow} (hindexed : Indexed planner reader store)
    (hbound : ∀ leaf ∈ reader.condition.andLeaves, IsBound planner reader.ev leaf)
    (hcovers : Covers planner reader store covers)
    (hplan : planner.plan (some reader.condition) = path)
    (hanswer : reader.indexAnswer store covers path = some answer) :
    answer.Perm ((reader.scan store).filterMap (showRow covers path)) ↔
      ∀ row ∈ store.rows, reader.rowOk row →
        (∃ leaf ∈ reader.condition.andLeaves, ∃ column value,
          InPlace planner reader.ev path row leaf column value) ∨
        found planner reader.ev.table row path := by
  have hanswered := answer_perm hindexed hcovers hplan hanswer
  calc
    answer.Perm ((reader.scan store).filterMap (showRow covers path)) ↔
        (((reader.scan store).filter fun row =>
          found planner reader.ev.table row path).filterMap (showRow covers path)).Perm
          ((reader.scan store).filterMap (showRow covers path)) :=
      ⟨hanswered.symm.trans, hanswered.trans⟩
    _ ↔ ∀ row ∈ reader.scan store, found planner reader.ev.table row path :=
      filterMap_filter_perm_iff fun row hrow => showRow_isSome hindexed hplan hanswer hrow
    _ ↔ _ := by
      constructor
      · exact fun h row hrow hok => .inr (h row (List.mem_filter.mpr ⟨hrow, hok⟩))
      · intro h row hrow
        obtain ⟨hmem, hok⟩ := List.mem_filter.mp hrow
        rcases h row hmem hok with ⟨leaf, hleaf, column, value, hplace⟩ | hfound
        · have haccepts : reader.accepts row := (Bool.and_eq_true _ _ ▸ hok).2
          exact found_of_inPlace (hbound leaf hleaf) hplace
            (evalSingle3_of_andLeaves reader.ev haccepts leaf hleaf) fun search hpath =>
            treeBound_of_answer hindexed hplace.leafAccess_eq hplace.left_eq hanswer hpath
        · exact hfound

end

/-! ### Two tables -/

/-- The index `i`. -/
def indexName : Bytes :=
  [0x69]

/-- A table with the column `k` and an index of it, of which a comparison reads the rows. -/
def keyPlanner (type : Ddl.DataType) (hashed : Bool) : Planner Empty where
  pkCol := none
  schema := some [([0x6B], type)]
  indexMeta := if hashed then [] else [(indexName, [0x6B])]
  hashIndexMeta := if hashed then [(indexName, [0x6B])] else []
  compositeAnswers := fun _ => false

def keyReader (leaf : Condition Empty) : Reader Empty where
  ev := plainEvaluator
  visible := fun _ => true
  condition := .leaf leaf

/-- The rows with `a` and `b`. -/
def letterRows : List ByteRow :=
  [keyRow [0x61], keyRow [0x62]]

def letterTree : KeyTree (List ByteRow) where
  kinds := [.text]
  root := BPlusTree.afterOps (cmpKeys plainEvaluator.table [.text])
    [.insert [0x62] [keyRow [0x62]], .insert [0x61] [keyRow [0x61]]]

def letterStore : Store where
  rows := letterRows
  pkTree := none
  indexes := fun index => if index = indexName then some letterTree else none
  hashIndexes := fun _ => none

theorem letterTree_entries : letterTree.root.collectAllKv =
    [([0x61], [keyRow [0x61]]), ([0x62], [keyRow [0x62]])] := by
  decide +kernel

theorem letterTree_holds :
    letterTree.Holds plainEvaluator.table .text id [0x6B] letterRows where
  kinds_eq := rfl
  walks :=
    have : Std.TransCmp (cmpKeys plainEvaluator.table letterTree.kinds) :=
      cmpKeys_transCmp (by decide)
    KeyTree.walks_of_wellFormed (BPlusTree.afterOps_wellFormed _).1
  rows_perm := by rw [letterTree_entries]; exact .refl _
  key_eq := by
    intro entry hentry row hrow
    rw [letterTree_entries] at hentry
    rcases List.mem_pair.mp hentry with rfl | rfl <;>
      obtain rfl := List.mem_singleton.mp hrow <;> exact ⟨_, rfl, by decide⟩

/-- `k = 'a'`. -/
def letterCondition : Condition Empty :=
  keyCondition .text .eq [0x61] true

def letterPath : AccessPath :=
  .secondary indexName [0x6B] (.point [0x61])

theorem plan_letter :
    (keyPlanner .text false).plan (some (.leaf letterCondition)) = letterPath := by
  decide

theorem indexed_letter : Indexed (keyPlanner .text false) (keyReader letterCondition)
    letterStore where
  pk := nofun
  secondary := by
    intro index col tree hmeta htree
    obtain ⟨rfl, rfl⟩ := Prod.mk.inj (List.mem_singleton.mp hmeta)
    obtain rfl : letterTree = tree := Option.some.inj htree
    exact letterTree_holds
  hash := nofun
  latest := by
    intro row hrow
    rcases List.mem_pair.mp hrow with rfl | rfl <;> rfl

/-- Of the two rows `k = 'a'` reads that with `a` from the tree. -/
theorem indexAnswer_letter :
    (∃ leaf ∈ (keyReader letterCondition).condition.andLeaves, ∃ column value,
      InPlace (keyPlanner .text false) plainEvaluator letterPath (keyRow [0x61]) leaf column
        value) ∨
    found (keyPlanner .text false) plainEvaluator.table (keyRow [0x61]) letterPath := by
  have hbound : IsBound (keyPlanner .text false) plainEvaluator letterCondition := by
    refine ⟨fun column hleft => ?_, fun _ _ => .inl rfl⟩
    obtain rfl : keyColumn .text = column := Operand.column.inj hleft
    decide
  have hcovers : Covers (keyPlanner .text false) (keyReader letterCondition) letterStore true := by
    intro _ index col search hplan
    obtain ⟨rfl, rfl, rfl⟩ := AccessPath.secondary.inj (plan_letter.symm.trans hplan)
    refine ⟨letterCondition, rfl, fun row hrow value hvalue name _ => ?_⟩
    rcases List.mem_pair.mp hrow with rfl | rfl <;> obtain rfl := Option.some.inj hvalue <;> rfl
  have hanswer : (keyReader letterCondition).indexAnswer letterStore true letterPath =
      some [keyRow [0x61]] := by
    decide +kernel
  exact (indexAnswer_iff indexed_letter (List.forall_mem_singleton.mpr hbound) hcovers plan_letter
    hanswer).mp (by decide) (keyRow [0x61]) (List.mem_pair.mpr (.inl rfl)) (by decide)

/-- `9007199254740993`. -/
def oddText : Bytes :=
  [0x39, 0x30, 0x30, 0x37, 0x31, 0x39, 0x39, 0x32, 0x35, 0x34, 0x37, 0x34, 0x30, 0x39, 0x39, 0x33]

/-- `k = 9007199254740993.0`. -/
def oddCondition : Condition Empty :=
  keyCondition .number .eq (oddText ++ [0x2E, 0x30]) false

def oddPath : AccessPath :=
  .hashPoint indexName [0x6B] (oddText ++ [0x2E, 0x30])

/-- The rows of a hash index under their keys. -/
def oddBuckets (key : Bytes) : List ByteRow :=
  [keyRow oddText].filter fun row => (row.lookup [0x6B]).any fun value =>
    normalizeNumericKey plainEvaluator.table value = key

def oddStore : Store where
  rows := [keyRow oddText]
  pkTree := none
  indexes := fun _ => none
  hashIndexes := fun index => if index = indexName then some oddBuckets else none

/-- `9007199254740993` is `9007199254740993.0` in a BIGINT column, and is in another bucket. -/
theorem not_indexAnswer : ¬ ∀ (planner : Planner Empty) (reader : Reader Empty) (store : Store)
    (covers : Bool) (path : AccessPath) (answer : List ByteRow), Indexed planner reader store →
    (∀ leaf ∈ reader.condition.andLeaves, IsBound planner reader.ev leaf) →
    Covers planner reader store covers → planner.plan (some reader.condition) = path →
    reader.indexAnswer store covers path = some answer →
    answer.Perm ((reader.scan store).filterMap (showRow covers path)) := by
  intro h
  have hplan : (keyPlanner .bigInt true).plan (some (.leaf oddCondition)) = oddPath := by
    decide +kernel
  have hindexed : Indexed (keyPlanner .bigInt true) (keyReader oddCondition) oddStore := by
    refine ⟨nofun, nofun, ?_, ?_⟩
    · intro index col buckets hmeta hbuckets key
      obtain ⟨rfl, rfl⟩ := Prod.mk.inj (List.mem_singleton.mp hmeta)
      obtain rfl : oddBuckets = buckets := Option.some.inj hbuckets
      exact List.Perm.refl _
    · intro row hrow
      obtain rfl : row = keyRow oddText := List.mem_singleton.mp hrow
      decide
  have hbound : IsBound (keyPlanner .bigInt true) plainEvaluator oddCondition := by
    refine ⟨fun column hleft => ?_, fun _ _ => .inl rfl⟩
    obtain rfl : keyColumn .number = column := Operand.column.inj hleft
    decide
  have hanswer : (keyReader oddCondition).indexAnswer oddStore false oddPath = some [] := by
    decide +kernel
  have hperm := h (keyPlanner .bigInt true) (keyReader oddCondition) oddStore false oddPath []
    hindexed (List.forall_mem_singleton.mpr hbound) nofun hplan hanswer
  exact absurd hperm (by decide +kernel)

end AccessPaths

end RusqlEngine.Where
