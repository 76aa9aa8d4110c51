import RusqlEngine.GapRange
import RusqlEngine.JoinChoice

/-!
# Every algorithm picks pairs

Each algorithm of a join step merges the pairs of rows that some relation picks: that the keys share
a bucket, are equal, or are found by a probe of an index that has the version. The rows after the
WHERE are those of the nested loop where each pair the WHERE keeps is picked exactly if the ON is
true of it.
-/

namespace RusqlEngine.Where

open NumericKey Joins Finmap
open Buffer (Bytes)

namespace JoinChoice

/-! ### The probe of an index -/

section

variable (table : UnicodeCollation.Table) (tree : AccessPaths.KeyTree (List ByteRow))

/-- A probe for the key finds the value. -/
def probeFinds (kinds : List KeyKind) (key value : Bytes) : Bool :=
  match treeBound kinds key true, treeBound kinds key false with
  | some lo, some hi =>
    between (KeyOrder.cmpKeys table kinds) lo hi value && sameValue table key value
  | _, _ => KeyOrder.cmpKeys table kinds value key = .eq

/-- The tree is in step with the rows: a probe gives those whose value it finds. -/
def InStep (col : Bytes) (rows : List ByteRow) : Prop :=
  ∀ key, (equalEntries table tree key).flatten.Perm
    (rows.filter fun row => (row.lookup col).any (probeFinds table tree.kinds key))

end

/-! ### What the planner may name -/

section

variable {ε : Type} {planner : Planner} {on : CondExpr ε}

/-- The algorithms of an equality of two columns, and the indexes that they are for. -/
inductive Shaped (planner : Planner) (probeCol buildCol : Bytes) : JoinAlgo → Prop
  | nestedLoop : Shaped planner probeCol buildCol .nestedLoop
  | sortMerge : Shaped planner probeCol buildCol (.sortMerge probeCol buildCol)
  | hash : Shaped planner probeCol buildCol (.hash probeCol buildCol)
  | indexNL (h : planner.pkCol planner.rightTable = some buildCol) :
      Shaped planner probeCol buildCol (.indexNL probeCol buildCol)
  | reverseIndexNL {index : Bytes} {isHash : Bool}
      (h : planner.leftIndex probeCol = some (index, isHash)) :
      Shaped planner probeCol buildCol (.reverseIndexNL buildCol index isHash probeCol)

theorem chooseJoinAlgo_cases : planner.chooseJoinAlgo on = .nestedLoop ∨
    ∃ probeCol buildCol, planner.shapeOf on = some (probeCol, buildCol) ∧
      Shaped planner probeCol buildCol (planner.chooseJoinAlgo on) := by
  rw [Planner.chooseJoinAlgo]
  cases hshape : planner.shapeOf on with
  | none => exact .inl rfl
  | some cols =>
    obtain ⟨probeCol, buildCol⟩ := cols
    refine .inr ⟨probeCol, buildCol, rfl, ?_⟩
    dsimp only
    split
    next => exact .nestedLoop
    next =>
      split
      next cost index isHash hreverse =>
        obtain ⟨hmap, -⟩ := Option.filter_eq_some_iff.mp hreverse
        obtain ⟨_, hindex, hpair⟩ := Option.map_eq_some_iff.mp hmap
        obtain ⟨-, rfl⟩ := Prod.mk.inj hpair
        exact .reverseIndexNL hindex
      next =>
        split
        next hforward =>
          refine .indexNL ?_
          rw [Planner.forwardCostOf] at hforward
          by_contra hpk
          rw [if_neg hpk] at hforward
          exact nomatch hforward
        next =>
          split
          next => exact .sortMerge
          next => exact .hash

theorem dot_not_mem_bareCol (s : Bytes) : dot ∉ AccessPaths.bareCol s := by
  rw [AccessPaths.bareCol, lastDot]
  split
  next _ col h =>
    split at h
    next =>
      obtain ⟨-, rfl⟩ := Prod.mk.inj (Option.some.inj h)
      intro hmem
      have := List.mem_rtakeWhile_imp hmem
      exact absurd this (by simp)
    next => exact nomatch h
  next h =>
    split at h
    next => exact nomatch h
    next hdot => exact hdot

theorem dot_not_mem_probeCol {probeCol buildCol : Bytes}
    (h : planner.shapeOf on = some (probeCol, buildCol)) : dot ∉ probeCol := by
  cases on with
  | leaf cond =>
    rw [Planner.shapeOf] at h
    split at h
    next column value _ _ _ =>
      split at h
      next =>
        dsimp only at h
        split at h
        next =>
          obtain ⟨rfl, -⟩ := Prod.mk.inj (Option.some.inj h)
          exact dot_not_mem_bareCol column.name
        next =>
          split at h
          next =>
            obtain ⟨rfl, -⟩ := Prod.mk.inj (Option.some.inj h)
            exact dot_not_mem_bareCol value
          next => exact nomatch h
      next => exact nomatch h
    next => exact nomatch h
  | and lhs rhs | or lhs rhs | not inner => exact nomatch h

end

/-! ### The pairs of an algorithm -/

section

variable {ε : Type} (step : Step ε) (latest : ByteRow → Bool)

namespace Step

def pairs : List (ByteRow × ByteRow) :=
  (step.leftRows.filter step.isVisible).product (step.rightRows.filter step.isVisible)

/-- The equality that the pairs are hashed on; all its keys can be read. -/
def hashedOn (algo : Option JoinAlgo) : Option OnEquality :=
  if algo.getD .nestedLoop = .nestedLoop ∧ step.scopeOk then
    step.equalityPartOfOn.filter fun eq =>
      !textVsNumber eq && step.right.all (fun r => (r.lookup eq.rightCol).isSome) &&
        step.left.all fun l => (step.ev.getCol l eq.leftRef).isSome
  else none

/-- Both keys are there and not NULL, and they are in one bucket. -/
def shareBucket (eq : OnEquality) (l r : ByteRow) : Bool :=
  let exactKeys : Bool := eq.leftClass = .text && eq.rightClass = .text
  let key := Join.hashedKey step.ev.table exactKeys (step.ev.getCol l eq.leftRef)
  key.isSome && Join.hashedKey step.ev.table exactKeys (r.lookup eq.rightCol) = key

/-- What a probe of the index of an algorithm finds for a key. -/
def indexFinds : JoinAlgo → Option (Bytes → Bytes → Bool)
  | .indexNL _ _ =>
    if step.inTransaction then none
    else step.rightIndex.map fun tree => probeFinds step.ev.table tree.kinds
  | .reverseIndexNL _ index isHash _ =>
    if step.inTransaction then none
    else if isHash then
      (step.leftHashIndexes index).map fun _ key value =>
        normalizeNumericKey step.ev.table value =
          normalizeNumericKey step.ev.table key
    else (step.leftIndexes index).map fun tree => probeFinds step.ev.table tree.kinds
  | _ => none

def probedFor (finds : Bytes → Bytes → Bool) (key value : Option Bytes) : Bool :=
  key.any fun key => key ≠ nullValue && value.any (finds key)

def pushed (l r : ByteRow) : Bool :=
  step.pushedLeft l && step.pushedRight r

/-- The pairs of an algorithm that does not evaluate the ON. -/
def plannedPicks (algo : JoinAlgo) (l r : ByteRow) : Bool :=
  match algo with
  | .nestedLoop => step.pushed l r && step.onMatch (step.merge l r)
  | .sortMerge probeCol buildCol =>
    step.pushed l r &&
      Join.keysJoin step.ev.table (Join.cell probeCol l) (Join.cell buildCol r)
  | .hash probeCol buildCol =>
    step.pushed l r &&
      Join.keysShare step.ev.table (Join.cell probeCol l) (Join.cell buildCol r)
  | .indexNL probeCol buildCol =>
    match step.indexFinds algo with
    | some finds =>
      step.pushedLeft l && latest r &&
        probedFor finds (step.ev.getCol l probeCol) (r.lookup buildCol)
    | none =>
      step.pushed l r &&
        Join.keysShare step.ev.table (Join.cell probeCol l) (Join.cell buildCol r)
  | .reverseIndexNL buildCol _ _ probeCol =>
    match step.indexFinds algo with
    | some finds =>
      step.pushedRight r && latest l &&
        probedFor finds (step.ev.getCol r buildCol) (l.lookup probeCol)
    | none =>
      step.pushed l r &&
        Join.keysShare step.ev.table (Join.cell probeCol l) (Join.cell buildCol r)

/-- The pairs that the join step merges. -/
def picks (algo : Option JoinAlgo) (l r : ByteRow) : Bool :=
  match step.hashedOn algo with
  | some eq => step.pushed l r && (step.shareBucket eq l r && step.onMatch (step.merge l r))
  | none => step.plannedPicks latest (algo.getD .nestedLoop) l r

end Step

namespace Step

def made (R : ByteRow → ByteRow → Bool) : List ByteRow :=
  (step.pairs.filter fun p => R p.1 p.2).map fun p => step.merge p.1 p.2

variable {step latest} {R R' : ByteRow → ByteRow → Bool} {algo : Option JoinAlgo}

theorem left_eq : step.left = (step.leftRows.filter step.isVisible).filter step.pushedLeft := by
  rw [left, List.filter_filter]
  exact List.filter_congr fun row _ => Bool.and_comm _ _

theorem right_eq : step.right = (step.rightRows.filter step.isVisible).filter step.pushedRight := by
  rw [right, List.filter_filter]
  exact List.filter_congr fun row _ => Bool.and_comm _ _

theorem filter_made (keep : ByteRow → Bool) :
    (step.made R).filter keep = step.made fun l r => R l r && keep (step.merge l r) := by
  rw [made, List.filter_map, List.filter_filter, made]
  refine congrArg _ (List.filter_congr fun p _ => ?_)
  exact Bool.and_comm _ _

theorem made_congr_pairs (h : ∀ p ∈ step.pairs, R p.1 p.2 = R' p.1 p.2) :
    step.made R = step.made R' := by
  rw [made, made, List.filter_congr h]

theorem made_congr (h : ∀ l r, R l r = R' l r) : step.made R = step.made R' :=
  made_congr_pairs fun p _ => h p.1 p.2

theorem loop_filter (step : Step ε) (R : ByteRow → ByteRow → Bool) (p q : ByteRow → Bool) :
    (((step.leftRows.filter step.isVisible).filter p).flatMap fun l =>
      (((step.rightRows.filter step.isVisible).filter q).filter (R l)).map (step.merge l)) =
      step.made fun l r => (p l && q r) && R l r := by
  rw [flatMap_map_filter, product_filter, List.filter_filter, made, pairs]
  exact congrArg _ (List.filter_congr fun pair _ => Bool.and_comm _ _)

theorem loop_eq : (step.left.flatMap fun l => (step.right.filter (R l)).map (step.merge l)) =
    step.made fun l r => step.pushed l r && R l r := by
  rw [left_eq, right_eq]
  exact loop_filter step R step.pushedLeft step.pushedRight

theorem nestedLoopJoin_eq (left right : List ByteRow) :
    Join.nestedLoopJoin step.ord left right .inner step.joinQualifier [] step.rightSchemaCols
      step.onMatch none (some step.keep) =
      left.flatMap fun l => (right.filter fun r =>
        step.onMatch (step.merge l r) && step.keep (step.merge l r)).map (step.merge l) := by
  rw [Join.nestedLoopJoin, if_neg (fun h => h rfl)]
  refine List.flatMap_congr fun l _ => ?_
  rw [List.filter_map]
  rfl

theorem nestedLoop_eq : step.nestedLoop = step.made fun l r =>
    step.onMatch (step.merge l r) && step.keep (step.merge l r) := by
  rw [nestedLoop, nestedLoopJoin_eq, flatMap_map_filter]
  rfl

theorem any_unread_eq {rows : List ByteRow} {key : ByteRow → Option Bytes} :
    rows.any (fun row => key row = none) = !rows.all fun row => (key row).isSome := by
  rw [List.not_all_eq_any_not]
  refine congrArg _ (funext fun row => ?_)
  cases key row <;> rfl

/-- An inner verified hash join gives the pairs that share a bucket and pass the condition. -/
theorem hashedJoinVerified_inner {weights : UnicodeCollation.Table} {ord : Join.RowOrder}
    {left right : List ByteRow} {table : Bytes} {leftKey rightKey : ByteRow → Option Bytes}
    {cols : List Bytes} {onMatch : ByteRow → Bool} {exactKeys : Bool} :
    Join.hashedJoinVerified weights ord left right table .inner leftKey rightKey cols onMatch none
        exactKeys =
      if (right.all fun r => (rightKey r).isSome) && left.all fun l => (leftKey l).isSome then
        some (left.flatMap fun l => (right.filter fun r =>
          ((Join.hashedKey weights exactKeys (leftKey l)).isSome &&
            decide (Join.hashedKey weights exactKeys (rightKey r) =
              Join.hashedKey weights exactKeys (leftKey l))) &&
            onMatch (Join.mergeRight ord l r table)).map fun r => Join.mergeRight ord l r table)
      else none := by
  have hmatches (l : ByteRow) : (Join.hashedMatches (Join.hashedRows weights exactKeys rightKey
      right) (Join.hashedKey weights exactKeys (leftKey l))
        fun r => onMatch (Join.mergeRight ord l r table)).map
          (fun r => Join.mergeRight ord l r.1 table) =
      (right.filter fun r => ((Join.hashedKey weights exactKeys (leftKey l)).isSome &&
        decide (Join.hashedKey weights exactKeys (rightKey r) =
          Join.hashedKey weights exactKeys (leftKey l))) &&
        onMatch (Join.mergeRight ord l r table)).map fun r => Join.mergeRight ord l r table := by
    rw [Join.hashedMatches, Join.hashedRows, bind_lookup_bucketsOf, List.filter_filter,
      ← map_fst_filter_zipIdx right, List.map_map]
    refine congrArg _ (List.filter_congr fun r _ => ?_)
    exact Bool.and_comm _ _
  rw [Join.hashedJoinVerified, if_neg (by decide), any_unread_eq, any_unread_eq]
  cases right.all fun r => (rightKey r).isSome with
  | false => rfl
  | true =>
    cases left.all fun l => (leftKey l).isSome with
    | false => rfl
    | true => exact congrArg some (List.flatMap_congr fun l _ => hmatches l)

theorem hashed_eq : step.hashed algo = (step.hashedOn algo).map fun eq =>
    step.made fun l r => step.pushed l r &&
      (step.shareBucket eq l r && step.onMatch (step.merge l r)) := by
  rw [hashed, hashedOn]
  split
  next =>
    cases step.equalityPartOfOn with
    | none => rfl
    | some eq =>
      rw [Option.bind_some, Option.filter_some, hashedJoinVerified_inner]
      cases textVsNumber eq with
      | true => rfl
      | false =>
        rw [if_neg Bool.false_ne_true, Bool.not_false, Bool.true_and]
        cases (step.right.all fun r => (r.lookup eq.rightCol).isSome) &&
          step.left.all fun l => (step.ev.getCol l eq.leftRef).isSome with
        | false => rfl
        | true => exact congrArg some loop_eq
  next => rfl

/-- The tables have the columns of the equality. -/
structure HasColumns (step : Step ε) (probeCol buildCol : Bytes) : Prop where
  left : ∀ l ∈ step.leftRows, probeCol ∈ l
  right : ∀ r ∈ step.rightRows, buildCol ∈ r
  unqualified : dot ∉ probeCol

/-- The indexes hold one version of each row, the latest one, and are in step with these. -/
structure Indexed (planner : Planner) (step : Step ε) (latest : ByteRow → Bool) : Prop where
  right : ∀ tree col, step.rightIndex = some tree → planner.pkCol planner.rightTable = some col →
    InStep step.ev.table tree col (step.rightRows.filter latest)
  left : ∀ tree index col, step.leftIndexes index = some tree →
    planner.leftIndex col = some (index, false) →
    InStep step.ev.table tree col (step.leftRows.filter latest)
  leftHash : ∀ buckets index col, step.leftHashIndexes index = some buckets →
    planner.leftIndex col = some (index, true) → ∀ key, (buckets key).Perm
      ((step.leftRows.filter latest).filter fun row => (row.lookup col).any fun value =>
        normalizeNumericKey step.ev.table value = key)

variable {planner : Planner} {probeCol buildCol col : Bytes} {chosen : JoinAlgo}
  {find : Bytes → List ByteRow} {finds : Bytes → Bytes → Bool} {rows : List ByteRow}

theorem probed_perm (h : ∀ key, (find key).Perm ((rows.filter latest).filter fun row =>
      (row.lookup col).any (finds key))) (key : Option Bytes) :
    (step.probed find key).Perm ((rows.filter step.isVisible).filter fun row =>
      latest row && probedFor finds key (row.lookup col)) := by
  have hnone (hkey : ∀ value, probedFor finds key value = false) :
      ((rows.filter step.isVisible).filter fun row =>
        latest row && probedFor finds key (row.lookup col)) = [] := by
    refine List.filter_eq_nil_iff.mpr fun row _ hrow => ?_
    rw [hkey, Bool.and_false] at hrow
    exact Bool.false_ne_true hrow
  cases key with
  | none => rw [hnone fun _ => rfl]; exact List.Perm.refl _
  | some key =>
    rw [probed]
    by_cases hnull : key = nullValue
    · rw [if_pos hnull, hnone fun _ => by simp [probedFor, hnull]]
    · rw [if_neg hnull]
      refine ((h key).filter _).trans (.of_eq ?_)
      rw [List.filter_filter, List.filter_filter, List.filter_filter]
      refine List.filter_congr fun row _ => ?_
      rw [probedFor, Option.any_some, decide_eq_true hnull, Bool.true_and]
      cases step.isVisible row <;> cases latest row <;>
        cases (row.lookup col).any (finds key) <;> rfl

theorem indexLoop_perm (h : ∀ key, (find key).Perm ((step.rightRows.filter latest).filter fun row =>
      (row.lookup buildCol).any (finds key))) :
    (step.indexLoop find probeCol).Perm (step.made fun l r =>
      step.pushedLeft l && latest r &&
        probedFor finds (step.ev.getCol l probeCol) (r.lookup buildCol)) := by
  have hloop := loop_filter step (fun l r => latest r &&
    probedFor finds (step.ev.getCol l probeCol) (r.lookup buildCol)) step.pushedLeft fun _ => true
  rw [List.filter_true, ← left_eq] at hloop
  refine (List.Perm.flatMap_left _ fun l _ =>
    (probed_perm h (step.ev.getCol l probeCol)).map _).trans (.of_eq (hloop.trans ?_))
  exact made_congr fun l r => by rw [Bool.and_true, Bool.and_assoc]

theorem reverseLoop_perm
    (h : ∀ key, (find key).Perm ((step.leftRows.filter latest).filter fun row =>
      (row.lookup probeCol).any (finds key))) :
    (step.reverseLoop find buildCol).Perm (step.made fun l r =>
      step.pushedRight r && latest l &&
        probedFor finds (step.ev.getCol r buildCol) (l.lookup probeCol)) := by
  have hloop := loop_filter step (fun l r => latest l &&
    probedFor finds (step.ev.getCol r buildCol) (l.lookup probeCol)) (fun _ => true)
    step.pushedRight
  rw [List.filter_true, ← right_eq] at hloop
  refine (List.Perm.flatMap_left _ fun r _ =>
    (probed_perm h (step.ev.getCol r buildCol)).map _).trans ?_
  refine (flatMap_map_filter_comm _ _ step.merge _).trans (.of_eq (hloop.trans ?_))
  exact made_congr fun l r => by rw [Bool.true_and, Bool.and_assoc]

/-- The two algorithms on lists of rows, of the rows of the step. -/
def call (step : Step ε) (probeCol buildCol : Bytes) : Join.Call where
  left := step.left
  right := step.right
  table := step.joinQualifier
  probeCol := probeCol
  buildCol := buildCol
  rightSchemaCols := step.rightSchemaCols
  leftPad := none

theorem HasColumns.joinable (h : HasColumns step probeCol buildCol) :
    (step.call probeCol buildCol).Joinable where
  build r hr := h.right r (List.mem_of_mem_filter hr)
  probe l hl := h.left l (List.mem_of_mem_filter hl)
  unqualified := h.unqualified

theorem hashJoin_eq (h : HasColumns step probeCol buildCol) :
    step.hashJoin probeCol buildCol = step.made fun l r => step.pushed l r &&
      Join.keysShare step.ev.table (Join.cell probeCol l) (Join.cell buildCol r) :=
  (Join.Call.hash_eq h.joinable (.inl rfl)).trans loop_eq

/-- The comparison of the keys of a sort-merge join runs in no circle. -/
def Sortable (step : Step ε) (algo : JoinAlgo) : Prop :=
  ∀ probeCol buildCol, algo = .sortMerge probeCol buildCol →
    SortMerge.TransOn (Join.sortCmp step.ev.table) (step.call probeCol buildCol).keys

theorem sortMergeJoin_perm (h : HasColumns step probeCol buildCol)
    (htrans : SortMerge.TransOn (Join.sortCmp step.ev.table) (step.call probeCol buildCol).keys) :
    (Join.sortMergeJoin step.ev.table step.ord step.left step.right .inner step.joinQualifier
      probeCol buildCol step.rightSchemaCols none).Perm (step.made fun l r => step.pushed l r &&
        Join.keysJoin step.ev.table (Join.cell probeCol l) (Join.cell buildCol r)) := by
  have hperm : ((step.call probeCol buildCol).sortMerge step.ev.table step.ord .inner).Perm
      ((step.call probeCol buildCol).nestedLoop step.ev.table step.ord .inner) :=
    (h.joinable.sortMerge_perm_iff htrans (.inl rfl)).mpr nofun
  rw [Join.Call.nestedLoop_eq h.joinable (.inl rfl)] at hperm
  exact hperm.trans (.of_eq loop_eq)

/-- The rows that an index of an algorithm is of, and their column. -/
def indexed (step : Step ε) (probeCol buildCol : Bytes) : JoinAlgo → List ByteRow × Bytes
  | .indexNL _ _ => (step.rightRows, buildCol)
  | _ => (step.leftRows, probeCol)

/-- An index that is read gives the latest versions whose value it finds for the key. -/
theorem find_cases (hindexed : Indexed planner step latest)
    (hshape : Shaped planner probeCol buildCol chosen) :
    (step.indexFind chosen = none ∧ step.indexFinds chosen = none) ∨
      ∃ find finds, step.indexFind chosen = some find ∧ step.indexFinds chosen = some finds ∧
        ∀ key, (find key).Perm (((step.indexed probeCol buildCol chosen).1.filter latest).filter
          fun row => (row.lookup (step.indexed probeCol buildCol chosen).2).any (finds key)) := by
  cases hshape with
  | nestedLoop | sortMerge | hash => exact .inl ⟨rfl, rfl⟩
  | indexNL hpk =>
    rw [indexFind, indexFinds]
    cases step.inTransaction with
    | true => exact .inl ⟨rfl, rfl⟩
    | false =>
      cases htree : step.rightIndex with
      | none => exact .inl ⟨rfl, rfl⟩
      | some tree => exact .inr ⟨_, _, rfl, rfl, hindexed.right tree buildCol htree hpk⟩
  | @reverseIndexNL index isHash hindex =>
    rw [indexFind, indexFinds]
    cases step.inTransaction with
    | true => exact .inl ⟨rfl, rfl⟩
    | false =>
      cases isHash with
      | true =>
        cases hbuckets : step.leftHashIndexes index with
        | none => exact .inl ⟨rfl, rfl⟩
        | some buckets =>
          exact .inr ⟨_, _, rfl, rfl,
            fun key => hindexed.leftHash buckets index probeCol hbuckets hindex _⟩
      | false =>
        cases htree : step.leftIndexes index with
        | none => exact .inl ⟨rfl, rfl⟩
        | some tree =>
          exact .inr ⟨_, _, rfl, rfl, hindexed.left tree index probeCol htree hindex⟩

theorem planned_perm (hcols : HasColumns step probeCol buildCol)
    (hindexed : Indexed planner step latest) (hshape : Shaped planner probeCol buildCol chosen)
    (hsort : step.Sortable chosen) (hrows : step.planned chosen = some rows) :
    rows.Perm (step.made (step.plannedPicks latest chosen)) := by
  cases hshape with
  | nestedLoop => exact nomatch hrows
  | sortMerge =>
    obtain rfl := Option.some.inj hrows
    exact sortMergeJoin_perm hcols (hsort _ _ rfl)
  | hash =>
    obtain rfl := Option.some.inj hrows
    exact .of_eq (hashJoin_eq hcols)
  | indexNL hpk =>
    rcases find_cases hindexed (.indexNL hpk) with
      ⟨hfind, hfinds⟩ | ⟨find, finds, hfind, hfinds, h⟩
    · rw [planned, hfind] at hrows
      obtain rfl := Option.some.inj hrows
      refine .of_eq ((hashJoin_eq hcols).trans (made_congr fun l r => ?_))
      rw [plannedPicks, hfinds]
    · rw [planned, hfind] at hrows
      obtain rfl := Option.some.inj hrows
      refine (indexLoop_perm h).trans (.of_eq (made_congr fun l r => ?_))
      rw [plannedPicks, hfinds]
      rfl
  | reverseIndexNL hindex =>
    rcases find_cases hindexed (.reverseIndexNL hindex) with
      ⟨hfind, hfinds⟩ | ⟨find, finds, hfind, hfinds, h⟩
    · rw [planned, hfind] at hrows
      obtain rfl := Option.some.inj hrows
      refine .of_eq ((hashJoin_eq hcols).trans (made_congr fun l r => ?_))
      rw [plannedPicks, hfinds]
    · rw [planned, hfind] at hrows
      obtain rfl := Option.some.inj hrows
      refine (reverseLoop_perm h).trans (.of_eq (made_congr fun l r => ?_))
      rw [plannedPicks, hfinds]
      rfl

/-- The algorithm that the step is given: none, the nested loop, or one for two columns that the
tables have. -/
def Given (planner : Planner) (step : Step ε) (algo : Option JoinAlgo) : Prop :=
  ∀ chosen, algo = some chosen → chosen = .nestedLoop ∨ ∃ probeCol buildCol,
    HasColumns step probeCol buildCol ∧ Shaped planner probeCol buildCol chosen ∧
      step.Sortable chosen

theorem nestedPlanned_eq : Join.nestedLoopJoin step.ord step.left step.right .inner
    step.joinQualifier [] step.rightSchemaCols step.onMatch none (some step.keep) =
      step.made fun l r =>
        step.plannedPicks latest .nestedLoop l r && step.keep (step.merge l r) := by
  rw [nestedLoopJoin_eq]
  refine loop_eq.trans (made_congr fun l r => ?_)
  rw [plannedPicks, Bool.and_assoc]

theorem planned_eq_none (h : step.planned chosen = none) : chosen = .nestedLoop := by
  cases chosen with
  | nestedLoop => rfl
  | sortMerge probeCol buildCol => exact nomatch h
  | hash probeCol buildCol => exact nomatch h
  | indexNL probeCol buildCol | reverseIndexNL buildCol index isHash probeCol =>
    rw [planned] at h
    split at h <;> exact nomatch h

theorem answer_perm (hindexed : Indexed planner step latest) (hgiven : Given planner step algo) :
    (step.answer algo).Perm
      (step.made fun l r => step.picks latest algo l r && step.keep (step.merge l r)) := by
  cases hon : step.hashedOn algo with
  | some eq =>
    have hpicks (l r : ByteRow) : step.picks latest algo l r = (step.pushed l r &&
        (step.shareBucket eq l r && step.onMatch (step.merge l r))) := by
      rw [picks, hon]
    rw [answer, hashed_eq, hon]
    refine .of_eq ((filter_made step.keep).trans (made_congr fun l r => ?_))
    rw [hpicks]
  | none =>
    have hpicks (l r : ByteRow) : step.picks latest algo l r =
        step.plannedPicks latest (algo.getD .nestedLoop) l r := by
      rw [picks, hon]
    have hmade : (step.made fun l r => step.picks latest algo l r && step.keep (step.merge l r)) =
        step.made fun l r => step.plannedPicks latest (algo.getD .nestedLoop) l r &&
          step.keep (step.merge l r) :=
      made_congr fun l r => by rw [hpicks]
    rw [answer, hashed_eq, hon, Option.map_none, Option.none_or, hmade]
    cases algo with
    | none => exact .of_eq nestedPlanned_eq
    | some chosen =>
      rw [Option.bind_some, Option.getD_some]
      cases hplanned : step.planned chosen with
      | none =>
        obtain rfl := planned_eq_none hplanned
        exact .of_eq nestedPlanned_eq
      | some rows =>
        rcases hgiven chosen rfl with rfl | ⟨probeCol, buildCol, hcols, hshape, hsort⟩
        · exact nomatch hplanned
        · have hperm := planned_perm hcols hindexed hshape hsort hplanned
          exact (hperm.filter step.keep).trans (.of_eq (filter_made step.keep))

/-- The rows of the left table have the same columns, and no name of a column has a dot. -/
structure Plain (step : Step ε) : Prop where
  columns : ∀ l ∈ step.leftRows, ∀ l' ∈ step.leftRows, ∀ k ∈ l, k ∈ l'
  left : ∀ l ∈ step.leftRows, ∀ k ∈ l, dot ∉ k
  right : ∀ r ∈ step.rightRows, ∀ k ∈ r, dot ∉ k

theorem lookup_qualified (hplain : Plain step) {l r : ByteRow} (hl : l ∈ step.leftRows)
    (hr : r ∈ step.rightRows) (k : Bytes) :
    (step.merge l r).lookup (Join.qualified step.joinQualifier k) = r.lookup k := by
  by_cases hk : k ∈ r
  · exact Join.lookup_mergeRight_qualified hk
  · have hdotted {row : ByteRow} (h : ∀ k ∈ row, dot ∉ k) :
        row.lookup (Join.qualified step.joinQualifier k) = none := by
      refine lookup_eq_none.mpr fun hmem => h _ hmem ?_
      exact List.mem_append_right _ List.mem_cons_self
    have hne : ∀ k' ∈ r, Join.qualified step.joinQualifier k ≠
        Join.qualified step.joinQualifier k' := by
      rintro k' hk' heq
      rw [← Join.qualified_inj.mp heq] at hk'
      exact hk hk'
    rw [merge, Join.lookup_mergeRight hne, hdotted (hplain.left l hl),
      hdotted (hplain.right r hr), Option.none_or, lookup_eq_none.mpr hk]

theorem merge_inj (hplain : Plain step) {l l' r r' : ByteRow} (hl : l ∈ step.leftRows)
    (hl' : l' ∈ step.leftRows) (hr : r ∈ step.rightRows) (hr' : r' ∈ step.rightRows)
    (h : step.merge l r = step.merge l' r') : l = l' ∧ r = r' := by
  have hleft {l r : ByteRow} (hl : l ∈ step.leftRows) {k : Bytes} (hk : k ∈ l) :
      (step.merge l r).lookup k = l.lookup k := by
    have hne : ∀ k' ∈ r, k ≠ Join.qualified step.joinQualifier k' :=
      fun k' _ => Join.ne_qualified (hplain.left l hl k hk) k'
    obtain ⟨v, hv⟩ := mem_iff.mp hk
    rw [merge, Join.lookup_mergeRight hne, hv, Option.some_or]
  refine ⟨ext_lookup fun k => ?_, ext_lookup fun k => ?_⟩
  · by_cases hk : k ∈ l
    · rw [← hleft (r := r) hl hk, h, hleft hl' (hplain.columns l hl l' hl' k hk)]
    · rw [lookup_eq_none.mpr hk, eq_comm, lookup_eq_none]
      exact fun hk' => hk (hplain.columns l' hl' l hl k hk')
  · rw [← lookup_qualified hplain hl hr, h, lookup_qualified hplain hl' hr']

theorem mem_pairs {l r : ByteRow} : (l, r) ∈ step.pairs ↔
    (l ∈ step.leftRows ∧ step.isVisible l) ∧ r ∈ step.rightRows ∧
      step.isVisible r := by
  rw [pairs, List.pair_mem_product, List.mem_filter, List.mem_filter]

theorem made_perm_iff (hplain : Plain step) : (step.made R).Perm (step.made R') ↔
    ∀ p ∈ step.pairs, R p.1 p.2 = R' p.1 p.2 := by
  refine map_filter_perm_iff fun p hp p' hp' heq => ?_
  obtain ⟨⟨hl, -⟩, hr, -⟩ := mem_pairs.mp hp
  obtain ⟨⟨hl', -⟩, hr', -⟩ := mem_pairs.mp hp'
  obtain ⟨hfst, hsnd⟩ := merge_inj hplain hl hl' hr hr' heq
  exact Prod.ext hfst hsnd

/-- The step picks each pair that the WHERE keeps exactly if the ON is true of it. -/
def Agrees (step : Step ε) (latest : ByteRow → Bool) (algo : Option JoinAlgo) : Prop :=
  ∀ l ∈ step.leftRows, ∀ r ∈ step.rightRows, step.isVisible l → step.isVisible r →
    step.keep (step.merge l r) →
      step.picks latest algo l r = step.onMatch (step.merge l r)

def planAlgo (planner : Planner) (step : Step ε) (aliased : Bool) : Option JoinAlgo :=
  if aliased then none else some (planner.chooseJoinAlgo step.on)

/-- The columns of the equality of the ON are columns of the two tables. -/
def OnColumns (planner : Planner) (step : Step ε) : Prop :=
  ∀ probeCol buildCol, planner.shapeOf step.on = some (probeCol, buildCol) →
    (∀ l ∈ step.leftRows, probeCol ∈ l) ∧ ∀ r ∈ step.rightRows, buildCol ∈ r

theorem given_planAlgo {aliased : Bool} (hcols : OnColumns planner step)
    (hsort : step.Sortable (planner.chooseJoinAlgo step.on)) :
    Given planner step (planAlgo planner step aliased) := by
  intro algo halgo
  rw [planAlgo] at halgo
  split at halgo
  next => exact nomatch halgo
  next =>
    obtain rfl := Option.some.inj halgo
    refine chooseJoinAlgo_cases.imp_right fun ⟨probeCol, buildCol, hshape, hshaped⟩ => ?_
    obtain ⟨hleft, hright⟩ := hcols probeCol buildCol hshape
    exact ⟨probeCol, buildCol, ⟨hleft, hright, dot_not_mem_probeCol hshape⟩, hshaped, hsort⟩

/-- Whatever algorithm is chosen, the rows after the WHERE are those of the nested loop over all the
rows seen where each pair that the WHERE keeps is picked exactly if the ON is true of it; of tables
with plain columns only there. A sort-merge join is of keys that run in no circle. -/
theorem answer_perm_iff (planner : Planner) (step : Step ε) (latest : ByteRow → Bool)
    (aliased : Bool) (hindexed : Indexed planner step latest) (hcols : OnColumns planner step)
    (hsort : step.Sortable (planner.chooseJoinAlgo step.on)) :
    (Agrees step latest (planAlgo planner step aliased) →
      (step.answer (planAlgo planner step aliased)).Perm step.nestedLoop) ∧
    (Plain step → (step.answer (planAlgo planner step aliased)).Perm step.nestedLoop →
      Agrees step latest (planAlgo planner step aliased)) := by
  have hanswer : (step.answer (planAlgo planner step aliased)).Perm (step.made fun l r =>
      step.picks latest (planAlgo planner step aliased) l r && step.keep (step.merge l r)) :=
    answer_perm hindexed (given_planAlgo hcols hsort)
  have hkept {a b c : Bool} : (a && c) = (b && c) ↔ (c → a = b) := by
    cases a <;> cases b <;> cases c <;> decide
  rw [nestedLoop_eq]
  constructor
  · intro hagrees
    refine hanswer.trans (.of_eq (made_congr_pairs fun p hp => hkept.mpr ?_))
    obtain ⟨⟨hl, hvl⟩, hr, hvr⟩ := mem_pairs.mp hp
    exact hagrees p.1 hl p.2 hr hvl hvr
  · intro hplain hperm l hl r hr hvl hvr
    have hpairs := (made_perm_iff hplain).mp (hanswer.symm.trans hperm)
    exact hkept.mp (hpairs (l, r) (mem_pairs.mpr ⟨⟨hl, hvl⟩, hr, hvr⟩))

end Step

end

/-! ### Eight rows of each table -/

/-- The row with the key in its only column `x`. -/
def xRow (key : Bytes) : ByteRow :=
  singleton [0x78] key

/-- `x = b.k`, of numbers. -/
def keysCondition : Condition Empty where
  left := .column ⟨[0x78], .number, .plain, false⟩
  op := .eq
  value := .literal [0x62, dot, 0x6B] false
  leftClass := .number
  rightClass := .number

/-- Tables of eight rows, the left one perhaps with a hash index of `x`. -/
def eightPlanner (indexed : Bool) : Planner where
  leftSize := 8
  rightSize := 8
  leftTable := [0x61]
  rightTable := [0x62]
  pkCol := fun _ => none
  findSecondaryIndex := fun _ _ => none
  findHashIndex := fun _ col => if indexed ∧ col = [0x78] then some [0x69] else none
  forwardCost := 8 * 3
  reverseCost := fun _ => 8 * 3
  sortMergeCost := (8 + 8) * 4

/-- The join of `a`, eight rows with a key, and `b`, eight rows with another. -/
def eightStep (a b : Bytes) : Step Empty where
  ev := plainEvaluator
  ord := Join.ascendingKeys
  cpus := 4
  joinQualifier := [0x62]
  bare := [0x62]
  leftRows := List.replicate 8 (xRow a)
  rightRows := List.replicate 8 (Join.keyRow b)
  isVisible := fun _ => true
  pushedLeft := fun _ => true
  pushedRight := fun _ => true
  on := .leaf keysCondition
  keep := fun _ => true
  rightSchemaCols := [[0x6B]]
  inTransaction := false
  scopeOk := true
  rightIndex := none
  leftIndexes := fun _ => none
  leftHashIndexes := fun _ => some fun key => (List.replicate 8 (xRow a)).filter fun row =>
    (row.lookup [0x78]).any fun value => normalizeNumericKey plainEvaluator.table value = key

section

variable {a b : Bytes} {indexed : Bool}

theorem chooseJoinAlgo_eight : (eightPlanner indexed).chooseJoinAlgo (.leaf keysCondition) =
    if indexed then .reverseIndexNL [0x6B] [0x69] true [0x78] else .hash [0x78] [0x6B] := by
  cases indexed <;> decide

theorem planAlgo_eight : Step.planAlgo (eightPlanner indexed) (eightStep a b) false =
    some (if indexed then .reverseIndexNL [0x6B] [0x69] true [0x78] else .hash [0x78] [0x6B]) :=
  congrArg some chooseJoinAlgo_eight

theorem indexed_eight : Step.Indexed (eightPlanner indexed) (eightStep a b) fun _ => true where
  right _ _ h := nomatch h
  left _ _ _ h := nomatch h
  leftHash buckets index col h hindex key := by
    have hcol : col = [0x78] := by
      by_contra hne
      simp [Planner.leftIndex, eightPlanner, hne] at hindex
    obtain rfl := Option.some.inj h
    rw [List.filter_true, hcol]
    rfl

theorem onColumns_eight : Step.OnColumns (eightPlanner indexed) (eightStep a b) := by
  intro probeCol buildCol hshape
  have hshape' : (eightPlanner indexed).shapeOf (.leaf keysCondition) = some ([0x78], [0x6B]) := by
    cases indexed <;> decide
  obtain ⟨rfl, rfl⟩ := Prod.mk.inj (Option.some.inj (hshape'.symm.trans hshape))
  refine ⟨fun l hl => ?_, fun r hr => ?_⟩
  · rw [List.eq_of_mem_replicate hl]
    exact (mem_singleton _ _ _).mpr rfl
  · rw [List.eq_of_mem_replicate hr]
    exact Join.mem_keyRow

theorem sortable_eight :
    (eightStep a b).Sortable ((eightPlanner indexed).chooseJoinAlgo (eightStep a b).on) := by
  intro probeCol buildCol hchosen
  cases indexed <;> exact nomatch chooseJoinAlgo_eight.symm.trans hchosen

end

/-- The index has `7` for a probe with `7.0`. -/
theorem answer_perm_iff_sevens :
    ((eightStep [0x37] [0x37, 0x2E, 0x30]).answer
      (Step.planAlgo (eightPlanner true) (eightStep [0x37] [0x37, 0x2E, 0x30]) false)).Perm
      (eightStep [0x37] [0x37, 0x2E, 0x30]).nestedLoop := by
  refine (Step.answer_perm_iff (eightPlanner true) _ (fun _ => true) false indexed_eight
    onColumns_eight sortable_eight).1 ?_
  intro l hl r hr _ _ _
  rw [planAlgo_eight, List.eq_of_mem_replicate hl, List.eq_of_mem_replicate hr]
  decide +kernel

/-- `9007199254740993` is `9007199254740993.0`, and the hash join does not find it. -/
theorem not_answer_perm : ¬ ∀ (planner : Planner) (step : Step Empty) (latest : ByteRow → Bool)
    (aliased : Bool), Step.Indexed planner step latest → Step.OnColumns planner step →
    (step.answer (Step.planAlgo planner step aliased)).Perm step.nestedLoop := by
  intro h
  have hperm := h (eightPlanner false) (eightStep Join.bigWhole Join.bigPoint) (fun _ => true) false
    indexed_eight onColumns_eight
  have hnone : (eightStep Join.bigWhole Join.bigPoint).answer
      (Step.planAlgo (eightPlanner false) (eightStep Join.bigWhole Join.bigPoint) false) = [] := by
    rw [planAlgo_eight]
    decide +kernel
  rw [hnone, List.nil_perm] at hperm
  exact absurd hperm (by decide +kernel)

end JoinChoice

end RusqlEngine.Where
