import RusqlEngine.PushdownSound
import Mathlib.Data.String.Basic

/-!
# Cross joins and the whole statement

A cross join that the WHERE pairs with a table before it is joined on those parts of the WHERE.
What that drops, and what a RIGHT or FULL join then pads instead, does not meet the WHERE: the
parts compare cells of the tables joined so far, and a padded cell equals nothing.
-/

namespace RusqlEngine.Pushdown

open Query Pushdown.Joined

variable {ev : Evaluator} {filters : Nat → List Cond}

/-! ### A guard that later joins do not change -/

/-- What a join does with the rows that pass a guard, where the guard asks a joined row only for
its left part. -/
def Join.guarded (ev : Evaluator) (j : Join) (right : List Row) (current : List Joined) :
    List Joined :=
  let onMatch : Joined → Bool := fun m => ev.evalCondexpr m.row j.on
  match j.joinType with
  | .inner => current.flatMap fun l => right.filterMap (j.pair ev onMatch l)
  | .cross => current.flatMap fun l => right.filterMap (j.pair ev (fun _ => true) l)
  | .left | .fullOuter => current.flatMap fun l =>
    match right.filterMap (j.pair ev onMatch l) with
    | [] => [j.padRight l]
    | found => found
  | .right => right.flatMap fun r => current.filterMap fun l => j.pair ev onMatch l r

theorem join_guard {j : Join} {n : Nat} {keys : List String} {current : List Joined}
    {right : List Row} {P : Joined → Bool}
    (hmerged : ∀ l ∈ current, ∀ r ∈ right, P (j.merged ev l r) = P l)
    (hright : ∀ l ∈ current, P (j.padRight l) = P l)
    (hleft : ∀ r ∈ right, P (j.padLeft ev n keys r) = false) :
    (j.join ev n keys current right).filter P = j.guarded ev right (current.filter P) := by
  have hpair : ∀ {on l r m}, l ∈ current → r ∈ right → j.pair ev on l r = some m → P m = P l := by
    intro on l r m hl hr hm
    rw [(pair_eq_some hm).1]
    exact hmerged l hl r hr
  have hpairs : ∀ on, (current.flatMap fun l => right.filterMap (j.pair ev on l)).filter P =
      (current.filter P).flatMap fun l => right.filterMap (j.pair ev on l) := by
    intro on
    refine Joins.flatMap_filter fun l hl m hm => ?_
    obtain ⟨r, hr, hm⟩ := List.mem_filterMap.mp hm
    exact hpair hl hr hm
  have hpadded : ∀ on, (current.flatMap fun l =>
        match right.filterMap (j.pair ev on l) with
        | [] => [j.padRight l]
        | found => found).filter P =
      (current.filter P).flatMap fun l =>
        match right.filterMap (j.pair ev on l) with
        | [] => [j.padRight l]
        | found => found := by
    intro on
    refine Joins.flatMap_filter fun l hl m hm => ?_
    split at hm
    · rw [List.mem_singleton.mp hm]
      exact hright l hl
    · obtain ⟨r, hr, hm⟩ := List.mem_filterMap.mp hm
      exact hpair hl hr hm
  cases htype : j.joinType with
  | inner | cross =>
    simp only [Join.join, Join.guarded, htype]
    exact hpairs _
  | left =>
    simp only [Join.join, Join.guarded, htype]
    exact hpadded _
  | right =>
    simp only [Join.join, Join.guarded, htype]
    rw [List.filter_flatMap]
    refine List.flatMap_congr fun r hr => ?_
    have hfilter := Joins.filterMap_filter (l := current) (p := P) (P := P)
      (f := fun l => j.pair ev (fun m => ev.evalCondexpr m.row j.on) l r)
      fun l hl m hm => hpair hl hr hm
    split
    · rename_i hnone
      rw [← hfilter, hnone, List.filter_cons_of_neg (by simp [hleft r hr])]
    · exact hfilter
  | fullOuter =>
    simp only [Join.join, Join.guarded, htype]
    have hnone : ((right.filter fun r => (current.filterMap fun l =>
        j.pair ev (fun m => ev.evalCondexpr m.row j.on) l r).isEmpty).map
          (j.padLeft ev n keys)).filter P = [] := by
      rw [List.filter_eq_nil_iff]
      intro m hm
      obtain ⟨r, hr, rfl⟩ := List.mem_map.mp hm
      simp [hleft r (List.mem_filter.mp hr).1]
    rw [List.filter_append, hnone, List.append_nil]
    exact hpadded _

/-! ### The parts of the WHERE a cross join is joined on -/

/-- An equation between columns of two of the first `n` tables. -/
structure Pairs (tabs : List ScopeTable) (n : Nat) (leaf : Leaf) (l r : String) (lo ro : Nat) :
    Prop where
  column : leaf.column = some l
  op : leaf.op = .eq
  value : leaf.value = .literal r false
  left : columnOwner tabs l = some lo
  right : columnOwner tabs r = some ro
  left_lt : lo < n
  right_lt : ro < n

def PairsColumns (tabs : List ScopeTable) (n : Nat) (part : Cond) : Prop :=
  ∃ leaf l r lo ro, part = .leaf leaf ∧ Pairs tabs n leaf l r lo ro

theorem PairsColumns.mono {tabs : List ScopeTable} {n n' : Nat} {part : Cond} (hn : n ≤ n')
    (h : PairsColumns tabs n part) : PairsColumns tabs n' part := by
  obtain ⟨leaf, l, r, lo, ro, hpart, hp⟩ := h
  exact ⟨leaf, l, r, lo, ro, hpart, { hp with
    left_lt := hp.left_lt.trans_le hn
    right_lt := hp.right_lt.trans_le hn }⟩

theorem pairsColumns_of_crossParts {q : Query} {i : Nat} {part : Cond}
    (h : part ∈ q.crossParts i) : PairsColumns q.scope (i + 2) part := by
  have hcond := (List.mem_filter.mp h).2
  split at hcond
  · rename_i l r _ _
    rw [Bool.and_eq_true] at hcond
    obtain ⟨-, hcond⟩ := hcond
    split at hcond
    · rename_i lo ro hlo hro
      rw [Bool.and_eq_true, beq_iff_eq] at hcond
      exact ⟨_, l, r, lo, ro, rfl, rfl, rfl, rfl, hlo, hro, by omega, by omega⟩
    · cases hcond
  · cases hcond

section

variable {tabs : List ScopeTable} {n : Nat} {part : Cond} {l m : Joined}

theorem getCol_eq_of_part (hs : PlainScope tabs) {name : String} {o n n' : Nat}
    (hown : columnOwner tabs name = some o) (hl : Made tabs n l) (hm : Made tabs n' m)
    (ho : o < n) (hpart : m.parts[o]? = l.parts[o]?) (ord : MapOrder) :
    getCol ord m.row name = getCol ord l.row name := by
  obtain ⟨t, c, hown⟩ := columnOwner_eq_some hown
  have hlt : o < l.parts.length := by rwa [hl.length]
  obtain ⟨p, hp⟩ : ∃ p, l.parts[o]? = some p := ⟨l.parts[o], List.getElem?_eq_getElem hlt⟩
  rw [hown.getCol_joined hs hm.reads hm.keyed (hpart.trans hp) ord,
    hown.getCol_joined hs hl.reads hl.keyed hp ord]

theorem PairsColumns.stable (hs : PlainScope tabs) (h : PairsColumns tabs n part)
    (hl : Made tabs n l) {n' : Nat} (hm : Made tabs n' m) {p : Option Row}
    (hparts : m.parts = l.parts ++ [p]) :
    ev.evalCondexpr m.row part = ev.evalCondexpr l.row part := by
  obtain ⟨leaf, a, b, lo, ro, rfl, hp⟩ := h
  have hsame : ∀ o < n, m.parts[o]? = l.parts[o]? := by
    intro o ho
    rw [hparts, List.getElem?_append_left (by rw [hl.length]; exact ho)]
  have ha := getCol_eq_of_part hs hp.left hl hm hp.left_lt (hsame lo hp.left_lt) ev.ord
  have hb := getCol_eq_of_part hs hp.right hl hm hp.right_lt (hsame ro hp.right_lt) ev.ord
  simp only [Evaluator.evalCondexpr, Evaluator.evalCond3, Evaluator.evalSingle3, hp.column,
    hp.value, Evaluator.wordValue, ha, hb]

theorem PairsColumns.not_padded (hs : PlainScope tabs) (h : PairsColumns tabs n part)
    {n' : Nat} (hm : Made tabs n' m) (hparts : ∀ o < n, m.parts[o]? = some none) :
    ev.evalCondexpr m.row part = false := by
  obtain ⟨leaf, a, b, lo, ro, rfl, hp⟩ := h
  obtain ⟨t, c, hown⟩ := columnOwner_eq_some hp.left
  have hnull : getCol ev.ord m.row a = some executorNull := by
    rw [hown.getCol_joined hs hm.reads hm.keyed (hparts lo hp.left_lt) ev.ord, valueOf,
      if_pos hown.column]
  have hne := ev.eq_null leaf (ev.wordValue m.row (.literal b false)) hp.op
  simp only [Evaluator.evalCondexpr, Evaluator.evalCond3, Evaluator.evalSingle3, hp.column,
    hp.value, hnull]
  exact beq_false_of_ne hne

end

/-! ### The joins of the resolved statement -/

def Joined.meetsAll (ev : Evaluator) (conds : List Cond) (m : Joined) : Bool :=
  conds.all (ev.evalCondexpr m.row)

theorem filter_meetsAll_append (conds conds' : List Cond) (rows : List Joined) :
    rows.filter (meetsAll ev (conds ++ conds')) =
      (rows.filter (meetsAll ev conds)).filter (meetsAll ev conds') := by
  rw [List.filter_filter]
  refine List.filter_congr fun m _ => ?_
  rw [meetsAll, List.all_append, Bool.and_comm]
  rfl

theorem evalCondexpr_andOf {conds : List Cond} {cond : Cond} (h : andOf conds = some cond)
    (row : Row) : ev.evalCondexpr row cond = conds.all (ev.evalCondexpr row) := by
  cases conds with
  | nil => cases h
  | cons part parts =>
    obtain rfl := Option.some.inj h
    induction parts generalizing part with
    | nil => simp
    | cons next parts ih =>
      rw [List.foldl_cons, ih (.and part next) rfl, List.all_cons, evalCondexpr_and,
        List.all_cons, List.all_cons, Bool.and_assoc]

theorem join_inner_eq_filter {j : Join} (hcross : j.joinType = .cross) (on : Cond) {n : Nat}
    {keys : List String} {current : List Joined} {right : List Row} :
    ({ j with joinType := .inner, on := on } : Join).join ev n keys current right =
      (j.join ev n keys current right).filter fun m => ev.evalCondexpr m.row on := by
  simp only [Join.join, hcross, List.filter_flatMap, List.filter_filterMap]
  refine List.flatMap_congr fun l _ => List.filterMap_congr fun r _ => ?_
  simp only [Join.pair, Option.filter, if_true]

section

variable {q : Query} {i : Nat} {j : Join} {conds : List Cond} {current current' : List Joined}

/-- Rows that agree where the parts are met still do so behind a join. -/
theorem join_meetsAll_congr (hs : PlainScope q.scope) (hj : q.scope[i + 1]? = some j.table)
    (hconds : ∀ part ∈ conds, PairsColumns q.scope (i + 1) part)
    (hmade : ∀ l ∈ current, Made q.scope (i + 1) l)
    (hmade' : ∀ l ∈ current', Made q.scope (i + 1) l)
    (heq : current'.filter (meetsAll ev conds) = current.filter (meetsAll ev conds)) :
    (j.join ev (i + 1) (padKeys (q.scope.take (i + 1))) current' j.rows).filter
        (meetsAll ev conds) =
      (j.join ev (i + 1) (padKeys (q.scope.take (i + 1))) current j.rows).filter
        (meetsAll ev conds) := by
  cases hnil : conds with
  | nil =>
    have hall : ∀ rows : List Joined, rows.filter (meetsAll ev []) = rows := fun rows =>
      List.filter_eq_self.mpr fun _ _ => rfl
    rw [hnil, hall, hall] at heq
    rw [heq]
  | cons part rest =>
    rw [← hnil]
    have hstable : ∀ {l m : Joined} {p : Option Row}, Made q.scope (i + 1) l →
        Made q.scope (i + 2) m → m.parts = l.parts ++ [p] →
        m.meetsAll ev conds = l.meetsAll ev conds := by
      intro l m p hl hm hparts
      rw [meetsAll, meetsAll, Bool.eq_iff_iff, List.all_eq_true, List.all_eq_true]
      exact forall₂_congr fun c hc => by rw [(hconds c hc).stable hs hl hm hparts]
    have hleft : ∀ r ∈ j.rows, meetsAll ev conds
        (j.padLeft ev (i + 1) (padKeys (q.scope.take (i + 1))) r) = false := by
      intro r hr
      have hmem : part ∈ conds := hnil ▸ List.mem_cons_self
      refine List.all_eq_false.mpr ⟨part, hmem, ?_⟩
      rw [(hconds part hmem).not_padded hs (Made.padLeft hs hj hr)]
      · decide
      · intro o ho
        rw [Join.padLeft, List.getElem?_append_left (by simpa using ho), List.getElem?_replicate,
          if_pos ho]
    have hguard : ∀ rows : List Joined, (∀ l ∈ rows, Made q.scope (i + 1) l) →
        (j.join ev (i + 1) (padKeys (q.scope.take (i + 1))) rows j.rows).filter
          (meetsAll ev conds) =
        j.guarded ev j.rows (rows.filter (meetsAll ev conds)) := by
      intro rows hrows
      refine join_guard ?_ ?_ hleft
      · exact fun l hl r hr => hstable (hrows l hl) ((hrows l hl).merged hs hj hr) rfl
      · exact fun l hl => hstable (hrows l hl) ((hrows l hl).padRight hs hj) rfl
    rw [hguard current hmade, hguard current' hmade', heq]

/-- One join, resolved. -/
theorem join_resolved (hs : PlainScope q.scope) (hj : q.joins[i]? = some j)
    (hconds : ∀ part ∈ conds, PairsColumns q.scope (i + 1) part)
    (hmade : ∀ l ∈ current, Made q.scope (i + 1) l)
    (hmade' : ∀ l ∈ current', Made q.scope (i + 1) l)
    (heq : current'.filter (meetsAll ev conds) = current.filter (meetsAll ev conds)) :
    ∃ more, (∀ part ∈ more, part ∈ q.crossParts i) ∧
      ((q.resolveJoin i j).join ev (i + 1) (q.leftPad i) current' j.rows).filter
          (meetsAll ev (conds ++ more)) =
        (j.join ev (i + 1) (q.leftPad i) current j.rows).filter
          (meetsAll ev (conds ++ more)) := by
  have hcongr := join_meetsAll_congr hs (scope_join q hj) hconds hmade hmade' heq
  rw [← leftPad_eq_padKeys] at hcongr
  rw [resolveJoin]
  split_ifs with hcross
  · cases hon : andOf (q.crossParts i) with
    | none => exact ⟨[], by simp, by simpa using hcongr⟩
    | some on =>
      refine ⟨q.crossParts i, fun _ h => h, ?_⟩
      have hfilter : ∀ rows : List Joined,
          (rows.filter fun m => ev.evalCondexpr m.row on) =
            rows.filter (meetsAll ev (q.crossParts i)) := fun rows =>
        List.filter_congr fun m _ => evalCondexpr_andOf hon m.row
      rw [join_inner_eq_filter hcross.1 on, hfilter, filter_meetsAll_append,
        filter_meetsAll_append, ← hcongr, List.filter_filter, List.filter_filter,
        List.filter_filter]
      refine List.filter_congr fun m _ => ?_
      cases meetsAll ev (q.crossParts i) m <;> simp
  · exact ⟨[], by simp, by simpa using hcongr⟩

theorem resolveJoin_table (q : Query) (i : Nat) (j : Join) :
    (q.resolveJoin i j).table = j.table ∧ (q.resolveJoin i j).rows = j.rows := by
  rw [resolveJoin]
  split_ifs
  · split <;> exact ⟨rfl, rfl⟩
  · exact ⟨rfl, rfl⟩

/-- All joins, resolved: the rows that meet the WHERE are the same. -/
theorem joinAll_resolved (hs : PlainScope q.scope) {joins : List Join}
    (hj : ∀ (k : Nat) j, joins[k]? = some j → q.joins[i + k]? = some j)
    (hconds : ∀ part ∈ conds, part ∈ q.parts ∧ PairsColumns q.scope (i + 1) part)
    (hmade : ∀ l ∈ current, Made q.scope (i + 1) l)
    (hmade' : ∀ l ∈ current', Made q.scope (i + 1) l)
    (heq : current'.filter (meetsAll ev conds) = current.filter (meetsAll ev conds)) :
    ∃ all, (∀ part ∈ all, part ∈ q.parts) ∧
      (q.joinAll ev (fun _ => []) (joins.mapIdx fun k => q.resolveJoin (i + k)) (i + 1)
          current').filter (meetsAll ev all) =
        (q.joinAll ev (fun _ => []) joins (i + 1) current).filter (meetsAll ev all) := by
  induction joins generalizing i conds current current' with
  | nil => exact ⟨conds, fun part hpart => (hconds part hpart).1, heq⟩
  | cons j joins ih =>
    have hjoin : q.joins[i]? = some j := hj 0 j rfl
    have htable := scope_join q hjoin
    obtain ⟨hresolved, hrows⟩ := resolveJoin_table q i j
    obtain ⟨more, hmore, hnext⟩ :=
      join_resolved hs hjoin (fun part hpart => (hconds part hpart).2) hmade hmade' heq
    have hrest : ∀ (k : Nat) j', joins[k]? = some j' → q.joins[i + 1 + k]? = some j' := by
      intro k j' hk
      rw [Nat.add_assoc, Nat.add_comm 1]
      exact hj (k + 1) j' hk
    have hconds' : ∀ part ∈ conds ++ more,
        part ∈ q.parts ∧ PairsColumns q.scope (i + 1 + 1) part := by
      intro part hpart
      rcases List.mem_append.mp hpart with hold | hnew
      · exact ⟨(hconds part hold).1, (hconds part hold).2.mono (by omega)⟩
      · have hcross := hmore part hnew
        exact ⟨(List.mem_filter.mp hcross).1, pairsColumns_of_crossParts hcross⟩
    have hmadeNext : ∀ m ∈ j.join ev (i + 1) (q.leftPad i) current j.rows,
        Made q.scope (i + 1 + 1) m := by
      rw [leftPad_eq_padKeys]
      exact made_join hs htable (fun r hr => hr) hmade
    have hmadeNext' : ∀ m ∈ (q.resolveJoin i j).join ev (i + 1) (q.leftPad i) current' j.rows,
        Made q.scope (i + 1 + 1) m := by
      rw [leftPad_eq_padKeys]
      exact made_join hs (hresolved ▸ htable) (fun r hr => hrows ▸ hr) hmade'
    obtain ⟨all, hall, hrun⟩ := ih hrest hconds' hmadeNext hmadeNext' hnext
    refine ⟨all, hall, ?_⟩
    have hfirst : q.resolveJoin (i + 0) j = q.resolveJoin i j := rfl
    rw [List.mapIdx_cons, joinAll, joinAll, Nat.add_sub_cancel, takeRows_nil,
      takeRows_nil, hfirst, hrows]
    simpa only [Nat.add_assoc, Nat.add_comm 1] using hrun

end

theorem scope_resolved (q : Query) : q.resolved.scope = q.scope := by
  rw [resolved]
  split_ifs
  · have htables : (q.joins.mapIdx q.resolveJoin).map Join.table = q.joins.map Join.table := by
      refine List.ext_getElem? fun i => ?_
      rw [List.getElem?_map, List.getElem?_mapIdx, List.getElem?_map, Option.map_map]
      exact congrFun (congrArg Option.map (funext fun j => (resolveJoin_table q i j).1)) _
    exact congrArg (List.cons _) htables
  · rfl

theorem condition_resolved (q : Query) : q.resolved.condition = q.condition := by
  rw [resolved]
  split_ifs <;> rfl

theorem PlainNames.resolved {q : Query} (hq : q.PlainNames) : q.resolved.PlainNames where
  scope := by
    rw [scope_resolved]
    exact hq.scope
  words := by
    rw [condition_resolved]
    exact hq.words

theorem joinAll_congr_scope {q q' : Query} (h : q.scope = q'.scope) (joins : List Join) (n : Nat)
    (current : List Joined) :
    q.joinAll ev filters joins n current = q'.joinAll ev filters joins n current := by
  induction joins generalizing n current with
  | nil => rfl
  | cons j joins ih =>
    rw [joinAll, joinAll, leftPad_eq_padKeys, leftPad_eq_padKeys, h, ih]

theorem unfiltered_resolved {q : Query} (hs : PlainScope q.scope) :
    q.resolved.unfiltered ev = q.unfiltered ev := by
  cases hknown : q.allKnown with
  | false => rw [resolved, hknown, if_neg (by decide)]
  | true =>
    have hmade := made_from q hs fun r hr => hr
    have hjoins : ∀ (k : Nat) j, q.joins[k]? = some j → q.joins[0 + k]? = some j := by
      intro k j hk
      rwa [Nat.zero_add]
    have hnone : ∀ part ∈ ([] : List Cond), part ∈ q.parts ∧ PairsColumns q.scope (0 + 1) part :=
      nofun
    obtain ⟨all, hall, heq⟩ : ∃ all, (∀ part ∈ all, part ∈ q.parts) ∧
        (q.resolved.joined ev fun _ => []).filter (meetsAll ev all) =
          (q.joined ev fun _ => []).filter (meetsAll ev all) := by
      obtain ⟨all, hall, heq⟩ := joinAll_resolved hs hjoins hnone hmade hmade
        (rfl : List.filter (meetsAll ev []) _ = _)
      refine ⟨all, hall, ?_⟩
      rw [joined, joinAll_congr_scope (scope_resolved q), joined, takeRows_nil,
        takeRows_nil, ← heq, resolved, hknown, if_pos rfl]
      simp only [Nat.zero_add]
    have hwhere : ∀ rows : List Joined, q.whereRows ev rows =
        q.whereRows ev (rows.filter (meetsAll ev all)) := by
      intro rows
      rw [whereRows, whereRows, List.filter_filter]
      refine List.filter_congr fun m _ => ?_
      cases hc : q.condition.elim true (ev.evalCondexpr m.row) with
      | false => rfl
      | true =>
        rw [where_eq_parts, List.all_eq_true] at hc
        symm
        rw [Bool.true_and]
        exact List.all_eq_true.mpr fun part hpart => hc part (hall part hpart)
    have hcondition : ∀ rows, q.resolved.whereRows ev rows = q.whereRows ev rows := by
      intro rows
      rw [whereRows, condition_resolved]
      rfl
    rw [unfiltered, unfiltered, hcondition, hwhere, heq, ← hwhere]

/-- The statement gives the rows of the unfiltered join that meet the WHERE exactly when those
are made of rows that meet what is pushed to their tables; plain names are enough for that. -/
theorem selected_perm_unfiltered_iff (ev : Evaluator) (q : Query) :
    ((q.selected ev).Perm (q.resolved.unfiltered ev) ↔
      ∀ m ∈ q.resolved.joined ev fun _ => [],
        q.condition.elim true (ev.evalCondexpr m.row) = true →
          m.meets ev (q.resolved.pushed ev.isNumber)) ∧
    (PlainScope q.scope → q.resolved.unfiltered ev = q.unfiltered ev) ∧
    (q.PlainNames → (q.selected ev).Perm (q.unfiltered ev)) := by
  have hexact := @pushed_perm_iff ev q.resolved
  rw [condition_resolved] at hexact
  refine ⟨hexact, unfiltered_resolved, fun hq => ?_⟩
  rw [← unfiltered_resolved hq.scope]
  refine hexact.mpr fun m hm hwhere => meets_of_where (PlainNames.resolved hq) hm ?_
  rwa [condition_resolved]

/-! ### Two tables -/

/-- The keys of a row in order. -/
def sortedKeys : MapOrder where
  keys row := Quotient.liftOn row.keys.val (List.insertionSort (· ≤ ·)) fun a b h =>
    (((List.perm_insertionSort _ a).trans h).trans
      (List.perm_insertionSort _ b).symm).eq_of_pairwise'
      (List.pairwise_insertionSort _ a) (List.pairwise_insertionSort _ b)
  mem_keys row k := by
    have hmem : ∀ (s : Multiset String) hf, k ∈ Quotient.liftOn s (List.insertionSort (· ≤ ·)) hf ↔
        k ∈ s := by
      intro s hf
      induction s using Quotient.inductionOn with
      | h l => exact (List.perm_insertionSort _ l).mem_iff
    rw [hmem]
    exact Finmap.mem_keys.trans Finmap.lookup_isSome.symm

/-- Comparisons of texts with `=`. -/
def textEvaluator : Evaluator where
  ord := sortedKeys
  isNumber w := w.toList.all Char.isDigit
  constant leaf left right :=
    match leaf.op, leaf.value, left with
    | .eq, .literal value _, some l =>
      if l = executorNull ∨ right.getD value = executorNull then .unknown
      else if l = right.getD value then .true
      else .false
    | _, _, _ => .unknown
  other _ _ := .unknown
  eq_null leaf right h := by
    simp only [h]
    split
    · rename_i hl
      rw [if_pos (.inl (Option.some.inj hl).symm)]
      exact nofun
    · exact nofun

theorem keyed_ofCells {columns : List String} {cells : List (List (String × String))}
    (h : ∀ row ∈ cells, row.map Prod.fst = columns ++ ["_xmin", "_xmax"]) :
    Keyed columns (cells.map Row.ofCells) := by
  intro r hr k
  obtain ⟨row, hrow, rfl⟩ := List.mem_map.mp hr
  have hkeys : (Row.ofCells row).keys = (row.map Prod.fst).toFinset := by
    ext k
    rw [Row.ofCells, Finmap.mem_keys, Finmap.mem_list_toFinmap, List.mem_toFinset]
    simp
  rw [Row.find, Finmap.lookup_isSome, ← Finmap.mem_keys, hkeys, h row hrow]
  simp only [List.mem_toFinset, List.mem_append, List.mem_cons, List.not_mem_nil, or_false]

theorem newOldKey_eq_none_of_first {col : String}
    (h : col.toList.head? ≠ some 'N' ∧ col.toList.head? ≠ some 'O') : newOldKey col = none := by
  rw [newOldKey]
  split
  · rename_i a b c rest heq
    rw [heq] at h
    simp_all
  · rfl

/-- `SELECT * FROM a INNER JOIN b ON a.id = b.id WHERE b.x = <word>`, where the row of `a` is of
transaction 1 and that of `b` of transaction 2. -/
def twoTables (word : String) : Query where
  table := "a"
  columns := ["id"]
  known := true
  rows := [[("id", "1"), ("_xmin", "1"), ("_xmax", "0")]].map Row.ofCells
  keyed := keyed_ofCells (by decide)
  joins := [
    { joinType := .inner
      qualifier := "b"
      columns := ["id", "x"]
      plain := true
      on := .leaf ⟨some "a.id", .eq, .literal "b.id" false, false, 0⟩
      rows := [[("id", "1"), ("x", "1"), ("_xmin", "2"), ("_xmax", "0")]].map Row.ofCells
      keyed := keyed_ofCells (by decide) }]
  condition := some (.leaf ⟨some "b.x", .eq, .literal word false, false, 1⟩)

/-- A comparison with the word `_xmin` is taken for one with a constant and pushed to `b`, where
the word is the cell of `b`; in the joined row it is that of `a`. -/
theorem selected_drops_system_word :
    ¬ ((twoTables "_xmin").selected textEvaluator).Perm
      ((twoTables "_xmin").unfiltered textEvaluator) := by
  intro h
  have hlength := h.length_eq
  revert hlength
  decide +kernel

theorem plainNames_twoTables : (twoTables "1").PlainNames where
  scope :=
    { bare_eq := by decide
      bare_nodup := by decide
      dotless := by
        unfold Dotless
        decide
      not_system := by decide
      not_trigger := by
        intro t ht c
        have hnames : (t.name = "a" ∨ t.name = "b") ∧ t.bare = t.name := by
          revert t
          decide
        have hfirst : newOldKey (t.name ++ "." ++ c) = none := by
          refine newOldKey_eq_none_of_first ?_
          rw [toList_key]
          rcases hnames.1 with h | h <;> simp [h]
        rw [hnames.2]
        exact ⟨hfirst, hfirst⟩ }
  words := by
    rintro cond ⟨⟩ w ⟨⟩
    decide

theorem selected_perm_unfiltered_twoTables :
    (twoTables "1").PlainNames ∧ ((twoTables "1").selected textEvaluator).length = 1 ∧
      ((twoTables "1").selected textEvaluator).Perm ((twoTables "1").unfiltered textEvaluator) :=
  ⟨plainNames_twoTables, by decide +kernel,
    (selected_perm_unfiltered_iff textEvaluator (twoTables "1")).2.2 plainNames_twoTables⟩

end RusqlEngine.Pushdown
