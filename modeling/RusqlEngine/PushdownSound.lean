import RusqlEngine.Library.Joins
import RusqlEngine.PushdownReads

/-!
# Pushed conjuncts drop what the WHERE drops

The rows of an inner or left join over filtered tables are the joined rows whose parts pass the
filters. So pushing conjuncts down changes nothing exactly when every joined row that meets the
WHERE comes from rows that meet the conjuncts pushed to their tables.
-/

namespace RusqlEngine.Pushdown

open Query

variable {ev : Evaluator} {filters : Nat → List Cond}

/-! ### Filters in front of the joins -/

/-- Every part of a joined row passes the conditions of its table. -/
def Joined.meets (ev : Evaluator) (filters : Nat → List Cond) (m : Joined) : Bool :=
  m.parts.zipIdx.all fun p => p.1.elim true fun r => (filters p.2).all (ev.evalCondexpr r)

variable {m : Joined} {n : Nat}

theorem meets_append (hlen : m.parts.length = n) (p : Option Row) (row : Row) :
    Joined.meets ev filters { parts := m.parts ++ [p], row := row } =
      (m.meets ev filters && p.elim true fun r => (filters n).all (ev.evalCondexpr r)) := by
  rw [Joined.meets, Joined.meets, List.zipIdx_append, List.all_append, hlen]
  simp

variable {j : Join}

theorem pair_eq_some {on : Joined → Bool} {l : Joined} {r : Row} (h : j.pair ev on l r = some m) :
    m = { parts := l.parts ++ [some r], row := mergeRight ev.ord l.row r j.qualifier } ∧
      on m := by
  rw [Join.pair] at h
  split_ifs at h with hon
  obtain rfl := Option.some.inj h
  exact ⟨rfl, hon⟩

variable {keys : List String} {current : List Joined}

theorem join_filter (hlen : ∀ l ∈ current, l.parts.length = n)
    (hj : j.joinType = .inner ∨ (j.joinType = .left ∧ filters n = [])) :
    j.join ev n keys (current.filter (Joined.meets ev filters)) (takeRows ev (filters n) j.rows) =
      (j.join ev n keys current j.rows).filter (Joined.meets ev filters) := by
  rcases hj with hinner | ⟨hleft, hnone⟩
  · simp only [Join.join, hinner, takeRows]
    symm
    refine Joins.pairs_filter fun l hl r _ m hm => ?_
    rw [(pair_eq_some hm).1, meets_append (hlen l hl)]
    rfl
  · have hall : takeRows ev (filters n) j.rows = j.rows := by
      rw [takeRows, hnone]
      exact List.filter_eq_self.mpr fun _ _ => rfl
    simp only [Join.join, hleft, hall]
    symm
    refine Joins.flatMap_filter fun l hl m hm => ?_
    have hpart : ∀ p row, m = { parts := l.parts ++ [p], row := row } →
        m.meets ev filters = l.meets ev filters := by
      rintro p row rfl
      rw [meets_append (hlen l hl), hnone]
      cases p <;> simp
    split at hm
    · rw [List.mem_singleton] at hm
      exact hpart none _ hm
    · obtain ⟨r, -, hr⟩ := List.mem_filterMap.mp hm
      exact hpart (some r) _ (pair_eq_some hr).1

/-- The row of a pair. -/
def Join.merged (ev : Evaluator) (j : Join) (l : Joined) (r : Row) : Joined where
  parts := l.parts ++ [some r]
  row := mergeRight ev.ord l.row r j.qualifier

variable {right : List Row}

theorem mem_leftJoin {on : Joined → Bool}
    (h : m ∈ current.flatMap fun l => match right.filterMap (j.pair ev on l) with
      | [] => [j.padRight l]
      | found => found) :
    (∃ l ∈ current, ∃ r ∈ right, m = j.merged ev l r) ∨ ∃ l ∈ current, m = j.padRight l := by
  obtain ⟨l, hl, hm⟩ := List.mem_flatMap.mp h
  split at hm
  · exact .inr ⟨l, hl, List.mem_singleton.mp hm⟩
  · obtain ⟨r, hr, hm⟩ := List.mem_filterMap.mp hm
    exact .inl ⟨l, hl, r, hr, (pair_eq_some hm).1⟩

theorem mem_join (h : m ∈ j.join ev n keys current right) :
    (∃ l ∈ current, ∃ r ∈ right, m = j.merged ev l r) ∨
      (∃ l ∈ current, m = j.padRight l) ∨ ∃ r ∈ right, m = j.padLeft ev n keys r := by
  have hpair : ∀ {on l r}, l ∈ current → r ∈ right → j.pair ev on l r = some m →
      (∃ l ∈ current, ∃ r ∈ right, m = j.merged ev l r) :=
    fun hl hr hm => ⟨_, hl, _, hr, (pair_eq_some hm).1⟩
  simp only [Join.join] at h
  split at h
  · obtain ⟨l, hl, hm⟩ := List.mem_flatMap.mp h
    obtain ⟨r, hr, hm⟩ := List.mem_filterMap.mp hm
    exact .inl (hpair hl hr hm)
  · obtain ⟨l, hl, hm⟩ := List.mem_flatMap.mp h
    obtain ⟨r, hr, hm⟩ := List.mem_filterMap.mp hm
    exact .inl (hpair hl hr hm)
  · exact (mem_leftJoin h).imp_right .inl
  · obtain ⟨r, hr, hm⟩ := List.mem_flatMap.mp h
    split at hm
    · exact .inr (.inr ⟨r, hr, List.mem_singleton.mp hm⟩)
    · obtain ⟨l, hl, hm⟩ := List.mem_filterMap.mp hm
      exact .inl (hpair hl hr hm)
  · rcases List.mem_append.mp h with hm | hm
    · exact (mem_leftJoin hm).imp_right .inl
    · obtain ⟨r, hr, rfl⟩ := List.mem_map.mp hm
      exact .inr (.inr ⟨r, (List.mem_filter.mp hr).1, rfl⟩)

theorem length_parts_join (hlen : ∀ l ∈ current, l.parts.length = n) :
    ∀ m ∈ j.join ev n keys current right, m.parts.length = n + 1 := by
  intro m hm
  rcases mem_join hm with ⟨l, hl, r, -, rfl⟩ | ⟨l, hl, rfl⟩ | ⟨r, -, rfl⟩
  · rw [Join.merged, List.length_append, hlen l hl, List.length_singleton]
  · rw [Join.padRight, List.length_append, hlen l hl, List.length_singleton]
  · rw [Join.padLeft, List.length_append, List.length_replicate, List.length_singleton]

theorem takeRows_nil (rows : List Row) : takeRows ev [] rows = rows :=
  List.filter_eq_self.mpr fun _ _ => rfl

variable (q : Query)

theorem joinAll_filter {joins : List Join} (hlen : ∀ l ∈ current, l.parts.length = n)
    (hj : ∀ i j, joins[i]? = some j →
      j.joinType = .inner ∨ (j.joinType = .left ∧ filters (n + i) = [])) :
    q.joinAll ev filters joins n (current.filter (Joined.meets ev filters)) =
      (q.joinAll ev (fun _ => []) joins n current).filter (Joined.meets ev filters) := by
  induction joins generalizing n current with
  | nil => rfl
  | cons j joins ih =>
    rw [joinAll, joinAll, takeRows_nil, join_filter hlen (hj 0 j rfl)]
    refine ih (length_parts_join hlen) fun i j' hj' => ?_
    rw [Nat.add_right_comm]
    exact hj (i + 1) j' hj'

theorem joined_filter (hj : ∀ i j, q.joins[i]? = some j →
      j.joinType = .inner ∨ (j.joinType = .left ∧ filters (i + 1) = [])) :
    q.joined ev filters = (q.joined ev fun _ => []).filter (Joined.meets ev filters) := by
  rw [joined, joined, takeRows_nil]
  have hbase : ((takeRows ev (filters 0) q.rows).map fun r => (⟨[some r], r⟩ : Joined)) =
      (q.rows.map fun r => (⟨[some r], r⟩ : Joined)).filter (Joined.meets ev filters) := by
    rw [List.filter_map, takeRows]
    congr 1
    refine List.filter_congr fun r _ => ?_
    simp [Joined.meets]
  rw [hbase]
  refine joinAll_filter q ?_ fun i j h => ?_
  · intro l hl
    obtain ⟨r, -, rfl⟩ := List.mem_map.mp hl
    rfl
  · rw [Nat.add_comm]
    exact hj i j h

theorem pushed_joins (isNumber : String → Bool) (hpush : q.pushes) (i : Nat) (j : Join)
    (h : q.joins[i]? = some j) :
    j.joinType = .inner ∨ (j.joinType = .left ∧ q.pushed isNumber (i + 1) = []) := by
  have hall : ∀ j ∈ q.joins, j.joinType = .inner ∨ j.joinType = .left := by
    simp only [pushes, Bool.and_eq_true, List.all_eq_true, Bool.or_eq_true, beq_iff_eq] at hpush
    exact hpush.2
  rcases hall j (List.mem_of_getElem? h) with hinner | hleft
  · exact .inl hinner
  · refine .inr ⟨hleft, ?_⟩
    rw [pushed, if_pos hpush, List.filter_eq_nil_iff]
    intro part _
    simp [h, hleft]

/-- Pushing conjuncts down changes nothing exactly when the parts of every joined row in the WHERE
meet what was pushed to their tables. -/
theorem pushed_perm_iff :
    (q.whereRows ev (q.joined ev (q.pushed ev.isNumber))).Perm (q.unfiltered ev) ↔
      ∀ m ∈ q.joined ev fun _ => [], q.condition.elim true (ev.evalCondexpr m.row) = true →
        m.meets ev (q.pushed ev.isNumber) := by
  have hjoined : q.joined ev (q.pushed ev.isNumber) =
      (q.joined ev fun _ => []).filter (Joined.meets ev (q.pushed ev.isNumber)) := by
    cases hpush : q.pushes with
    | true => exact joined_filter q (pushed_joins q ev.isNumber hpush)
    | false =>
      have hnone : q.pushed ev.isNumber = fun _ => [] := by
        funext i
        simp [pushed, hpush]
      rw [hnone]
      refine (List.filter_eq_self.mpr fun m _ => ?_).symm
      rw [Joined.meets, List.all_eq_true]
      rintro ⟨p, i⟩ -
      cases p <;> rfl
  rw [hjoined, unfiltered, whereRows, whereRows]
  exact Joins.filter_filter_perm_iff

/-! ### Every joined row holds the cells of its tables -/

/-- A row made of the first `n` tables of the scope. -/
structure Made (tabs : List ScopeTable) (n : Nat) (m : Joined) : Prop where
  length : m.parts.length = n
  reads : Reads tabs m.parts m.row
  keyed : PartsKeyed tabs m.parts

theorem PartsKeyed.append {tabs : List ScopeTable} {parts : List (Option Row)} {t : ScopeTable}
    {p : Option Row} (h : PartsKeyed tabs parts) (hn : parts.length = n) (ht : tabs[n]? = some t)
    (hp : PartKeyed t p) : PartsKeyed tabs (parts ++ [p]) := by
  intro i u x hu hx
  by_cases hlt : i < parts.length
  · rw [List.getElem?_append_left hlt] at hx
    exact h i u x hu hx
  · have hi : i = n := by
      obtain ⟨hb, -⟩ := List.getElem?_eq_some_iff.mp hx
      rw [List.length_append, List.length_singleton] at hb
      omega
    subst hi
    rw [List.getElem?_append_right (by omega), hn, Nat.sub_self, List.getElem?_cons_zero,
      Option.some.injEq] at hx
    rw [ht, Option.some.injEq] at hu
    rw [← hu, ← hx]
    exact hp

theorem partKeyed_none (t : ScopeTable) : PartKeyed t none := by
  intro r hr
  cases hr

theorem partsKeyed_nil (tabs : List ScopeTable) : PartsKeyed tabs [] := by
  intro i t p _ hp
  cases hp

theorem partsKeyed_replicate (tabs : List ScopeTable) (n : Nat) :
    PartsKeyed tabs (List.replicate n none) := by
  intro i t p _ hp
  rw [List.getElem?_replicate] at hp
  split_ifs at hp
  rw [← Option.some.inj hp]
  exact partKeyed_none t

theorem leftPad_eq_padKeys (i : Nat) : q.leftPad i = padKeys (q.scope.take (i + 1)) := by
  simp [leftPad, scope, padKeys, List.flatMap_map, ← List.map_take]

def Join.table (j : Join) : ScopeTable where
  name := j.qualifier
  bare := lastPart j.qualifier
  columns := j.columns

theorem scope_join {i : Nat} (h : q.joins[i]? = some j) : q.scope[i + 1]? = some j.table := by
  rw [scope, List.getElem?_cons_succ, List.getElem?_map, h]
  rfl

theorem Join.partKeyed (j : Join) {r : Row} (hr : r ∈ j.rows) : PartKeyed j.table (some r) := by
  intro r' he
  obtain rfl := Option.some.inj he
  exact j.keyed r hr

section

variable {tabs : List ScopeTable} {i : Nat} {j : Join}

theorem Made.merged (hs : PlainScope tabs) (hj : tabs[i + 1]? = some j.table) {l : Joined}
    (h : Made tabs (i + 1) l) {r : Row} (hr : r ∈ j.rows) :
    Made tabs (i + 2) (j.merged ev l r) where
  length := by rw [Join.merged, List.length_append, h.length, List.length_singleton]
  reads := h.reads.merge hs h.length (by omega) hj ev.ord (j.partKeyed hr)
  keyed := h.keyed.append h.length hj (j.partKeyed hr)

theorem Made.padRight (hs : PlainScope tabs) (hj : tabs[i + 1]? = some j.table) {l : Joined}
    (h : Made tabs (i + 1) l) : Made tabs (i + 2) (j.padRight l) where
  length := by rw [Join.padRight, List.length_append, h.length, List.length_singleton]
  reads := by
    have hreads := h.reads.null hs h.length (by omega) hj
    exact hreads
  keyed := h.keyed.append h.length hj (partKeyed_none _)

theorem Made.padLeft (hs : PlainScope tabs) (hj : tabs[i + 1]? = some j.table) {r : Row}
    (hr : r ∈ j.rows) :
    Made tabs (i + 2) (j.padLeft ev (i + 1) (padKeys (tabs.take (i + 1))) r) where
  length := by
    rw [Join.padLeft, List.length_append, List.length_replicate, List.length_singleton]
  reads := (Reads.pad hs (i + 1)).merge hs List.length_replicate (by omega) hj ev.ord
    (j.partKeyed hr)
  keyed := (partsKeyed_replicate tabs (i + 1)).append List.length_replicate hj (j.partKeyed hr)

theorem made_join (hs : PlainScope tabs) (hj : tabs[i + 1]? = some j.table)
    (hright : ∀ r ∈ right, r ∈ j.rows) (h : ∀ l ∈ current, Made tabs (i + 1) l) :
    ∀ m ∈ j.join ev (i + 1) (padKeys (tabs.take (i + 1))) current right, Made tabs (i + 2) m := by
  intro m hm
  rcases mem_join hm with ⟨l, hl, r, hr, rfl⟩ | ⟨l, hl, rfl⟩ | ⟨r, hr, rfl⟩
  · exact (h l hl).merged hs hj (hright r hr)
  · exact (h l hl).padRight hs hj
  · exact Made.padLeft hs hj (hright r hr)

theorem made_joinAll {q : Query} (hs : PlainScope q.scope) {joins : List Join}
    (hj : ∀ (k : Nat) j, joins[k]? = some j → q.joins[i + k]? = some j)
    (h : ∀ l ∈ current, Made q.scope (i + 1) l) :
    ∀ m ∈ q.joinAll ev filters joins (i + 1) current, Made q.scope (i + 1 + joins.length) m := by
  induction joins generalizing i current with
  | nil => exact h
  | cons j joins ih =>
    rw [joinAll, List.length_cons, Nat.add_sub_cancel, leftPad_eq_padKeys]
    intro m hm
    have hrest : ∀ (k : Nat) j', joins[k]? = some j' → q.joins[i + 1 + k]? = some j' := by
      intro k j' hk
      rw [Nat.add_assoc, Nat.add_comm 1]
      exact hj (k + 1) j' hk
    have hmade := ih hrest
      (made_join hs (scope_join q (hj 0 j rfl)) (fun r hr => (List.mem_filter.mp hr).1) h) m hm
    rwa [Nat.add_right_comm, Nat.add_assoc] at hmade

theorem made_from (hs : PlainScope q.scope) {rows : List Row} (hrows : ∀ r ∈ rows, r ∈ q.rows) :
    ∀ l ∈ rows.map fun r => (⟨[some r], r⟩ : Joined), Made q.scope 1 l := by
  intro l hl
  obtain ⟨r, hr, rfl⟩ := List.mem_map.mp hl
  have hkeyed : PartKeyed { name := q.table, bare := lastPart q.table, columns := q.columns }
      (some r) := fun _ he => Option.some.inj he ▸ q.keyed r (hrows r hr)
  refine ⟨rfl, Reads.from hs rfl hkeyed, ?_⟩
  exact (partsKeyed_nil q.scope).append rfl rfl hkeyed

theorem made_joined {q : Query} (hs : PlainScope q.scope) :
    ∀ m ∈ q.joined ev filters, Made q.scope (1 + q.joins.length) m := by
  rw [joined]
  refine made_joinAll (i := 0) hs (fun k j hk => by rwa [Nat.zero_add]) ?_
  exact made_from q hs fun r hr => (List.mem_filter.mp hr).1

end

/-! ### A conjunct of the WHERE -/

theorem evalCondexpr_and {row : Row} {lhs rhs : Cond} :
    ev.evalCondexpr row (.and lhs rhs) = (ev.evalCondexpr row lhs && ev.evalCondexpr row rhs) := by
  simp only [Evaluator.evalCondexpr, Evaluator.evalCond3]
  cases ev.evalCond3 row lhs <;> cases ev.evalCond3 row rhs <;> rfl

theorem evalCondexpr_andConjuncts {row : Row} (cond : Cond) :
    ev.evalCondexpr row cond = cond.andConjuncts.all (ev.evalCondexpr row) := by
  induction cond with
  | and lhs rhs ihl ihr =>
    rw [evalCondexpr_and, Cond.andConjuncts, List.all_append, ihl, ihr]
  | leaf _ | or _ _ | not _ => simp [Cond.andConjuncts]

theorem Cond.NoSystemWords.conjunct {cond part : Cond} (h : cond.NoSystemWords)
    (hpart : part ∈ cond.andConjuncts) : part.NoSystemWords := by
  induction cond with
  | and lhs rhs ihl ihr =>
    rcases List.mem_append.mp hpart with hl | hr
    · exact ihl h.1 hl
    · exact ihr h.2 hr
  | leaf _ | or _ _ | not _ => exact List.mem_singleton.mp hpart ▸ h

theorem where_eq_parts (row : Row) :
    q.condition.elim true (ev.evalCondexpr row) = q.parts.all (ev.evalCondexpr row) := by
  rw [parts]
  cases q.condition with
  | none => rfl
  | some cond => exact evalCondexpr_andConjuncts cond

/-- The names of a statement cannot be mistaken. -/
structure Query.PlainNames (q : Query) : Prop where
  scope : PlainScope q.scope
  words : ∀ cond, q.condition = some cond → cond.NoSystemWords

theorem meets_of_where {q : Query} (hq : q.PlainNames) (hm : m ∈ q.joined ev fun _ => [])
    (hwhere : q.condition.elim true (ev.evalCondexpr m.row) = true) :
    m.meets ev (q.pushed ev.isNumber) := by
  have hmade := made_joined hq.scope m hm
  rw [where_eq_parts, List.all_eq_true] at hwhere
  rw [Joined.meets, List.all_eq_true]
  rintro ⟨p, i⟩ hp
  have hpi : m.parts[i]? = some p := List.mem_zipIdx_iff_getElem?.mp hp
  cases p with
  | none => rfl
  | some r =>
    refine List.all_eq_true.mpr fun part hpart => ?_
    rw [pushed] at hpart
    split_ifs at hpart
    · obtain ⟨hmem, hcond⟩ := List.mem_filter.mp hpart
      rw [Bool.and_eq_true, beq_iff_eq] at hcond
      have hword : part.NoSystemWords := by
        rw [parts] at hmem
        cases hc : q.condition with
        | none => simp [hc] at hmem
        | some cond =>
          rw [hc] at hmem
          exact (hq.words cond hc).conjunct hmem
      rw [Evaluator.evalCondexpr,
        ← evalCond3_owner hq.scope hmade.reads hmade.keyed hword hcond.1 hpi]
      exact hwhere part hmem
    · cases hpart

end RusqlEngine.Pushdown
