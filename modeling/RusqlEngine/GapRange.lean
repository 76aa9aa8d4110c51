import RusqlEngine.CollationKey
import RusqlEngine.Where

/-!
# The gap range of a WHERE

`extract_pk_gap_range` intersects the bounds that the AND-ed comparisons of a WHERE put on the
primary key; an INSERT asks `gap_range_contains` whether its key is in the range. Both compare by
`cmp_val`, as doubles where both texts are numbers and by the collation elsewhere, whatever the
class of the column is.
-/

namespace RusqlEngine.Where

open Buffer (Bytes)
open UnicodeCollation (Table)
open Pushdown (Operator)

structure GapRange where
  lo : Option Bytes
  hi : Option Bytes
  loInclusive : Bool
  hiInclusive : Bool
deriving DecidableEq

def GapRange.whole : GapRange where
  lo := none
  hi := none
  loInclusive := true
  hiInclusive := true

section

variable (table : Table)

def narrowLo (range : GapRange) (v : Bytes) (inclusive : Bool) : GapRange :=
  match range.lo with
  | none => { range with lo := some v, loInclusive := inclusive }
  | some lo =>
    let c := cmpVal table v lo
    if c = .gt ∨ (c = .eq ∧ inclusive = false ∧ range.loInclusive) then
      { range with lo := some v, loInclusive := inclusive }
    else range

def narrowHi (range : GapRange) (v : Bytes) (inclusive : Bool) : GapRange :=
  match range.hi with
  | none => { range with hi := some v, hiInclusive := inclusive }
  | some hi =>
    let c := cmpVal table v hi
    if c = .lt ∨ (c = .eq ∧ inclusive = false ∧ range.hiInclusive) then
      { range with hi := some v, hiInclusive := inclusive }
    else range

variable {ε : Type}

/-- The loop body of `extract_pk_gap_range`. -/
def narrowLeaf (pkCol : Bytes) (range : GapRange) (cond : Condition ε) : GapRange :=
  match cond.left with
  | .expr _ => range
  | .column col =>
    if col.name ≠ pkCol then range
    else
      match cond.value with
      | .literal v _ =>
        match cond.op with
        | .eq => narrowHi table (narrowLo table range v true) v true
        | .gt => narrowLo table range v false
        | .gte => narrowLo table range v true
        | .lt => narrowHi table range v false
        | .lte => narrowHi table range v true
        | _ => range
      | .between lo hi _ _ =>
        if cond.op = .between then narrowHi table (narrowLo table range lo true) hi true
        else range
      | _ => range

def extractPkGapRange (condition : Option (CondExpr ε)) (pkCol : Bytes) : GapRange :=
  match condition with
  | none => .whole
  | some cond => cond.andLeaves.foldl (narrowLeaf table pkCol) .whole

def gapRangeContains (range : GapRange) (value : Bytes) : Bool :=
  (match range.lo with
    | none => true
    | some lo =>
      let c := cmpVal table value lo
      !(c == .lt || (c == .eq && !range.loInclusive))) &&
  (match range.hi with
    | none => true
    | some hi =>
      let c := cmpVal table value hi
      !(c == .gt || (c == .eq && !range.hiInclusive)))

end

/-- A bound of one side. -/
structure Bound where
  literal : Bytes
  lower : Bool
  inclusive : Bool
deriving DecidableEq

def Bound.holds (b : Bound) (order : Ordering) : Bool :=
  (order == if b.lower then .gt else .lt) || (order == .eq && b.inclusive)

/-- The bounds a comparison of the column with literals puts on it. -/
def Condition.bounds {ε : Type} (pkCol : Bytes) (cond : Condition ε) : List Bound :=
  match cond.left with
  | .expr _ => []
  | .column col =>
    if col.name ≠ pkCol then []
    else
      match cond.value with
      | .literal v _ =>
        match cond.op with
        | .eq => [⟨v, true, true⟩, ⟨v, false, true⟩]
        | .gt => [⟨v, true, false⟩]
        | .gte => [⟨v, true, true⟩]
        | .lt => [⟨v, false, false⟩]
        | .lte => [⟨v, false, true⟩]
        | _ => []
      | .between lo hi _ _ =>
        if cond.op = .between then [⟨lo, true, true⟩, ⟨hi, false, true⟩] else []
      | _ => []

namespace GapRange

def narrow (table : Table) (range : GapRange) (b : Bound) : GapRange :=
  if b.lower then narrowLo table range b.literal b.inclusive
  else narrowHi table range b.literal b.inclusive

def bounds (range : GapRange) : List Bound :=
  (range.lo.toList.map fun lo => ⟨lo, true, range.loInclusive⟩) ++
    range.hi.toList.map fun hi => ⟨hi, false, range.hiInclusive⟩

end GapRange

section

variable {table : Table} {ε : Type} {pkCol v : Bytes}

theorem narrowLeaf_eq (pkCol : Bytes) (range : GapRange) (cond : Condition ε) :
    narrowLeaf table pkCol range cond =
      (cond.bounds pkCol).foldl (GapRange.narrow table) range := by
  obtain ⟨left, op, value, leftClass, rightClass⟩ := cond
  cases left with
  | expr e => rfl
  | column col =>
    rw [narrowLeaf, Condition.bounds]
    dsimp only
    by_cases hname : col.name ≠ pkCol
    · rw [if_pos hname, if_pos hname]
      rfl
    · rw [if_neg hname, if_neg hname]
      cases value with
      | literal v quoted | between lo hi loQuoted hiQuoted => cases op <;> rfl
      | literalList values | arith e | subquery => rfl

theorem foldl_narrowLeaf (leaves : List (Condition ε)) (range : GapRange) :
    leaves.foldl (narrowLeaf table pkCol) range =
      (leaves.flatMap (Condition.bounds pkCol)).foldl (GapRange.narrow table) range := by
  rw [List.foldl_flatMap]
  congr 1
  funext range cond
  exact narrowLeaf_eq pkCol range cond

theorem narrow_cases (table : Table) (range : GapRange) (b : Bound) :
    range.narrow table b = range ∨ range.narrow table b =
      if b.lower then { range with lo := some b.literal, loInclusive := b.inclusive }
      else { range with hi := some b.literal, hiInclusive := b.inclusive } := by
  rw [GapRange.narrow]
  cases b.lower with
  | true =>
    rw [if_pos rfl, if_pos rfl, narrowLo]
    cases range.lo with
    | none => exact .inr rfl
    | some lo => exact (ite_eq_or_eq ..).symm
  | false =>
    rw [if_neg Bool.false_ne_true, if_neg Bool.false_ne_true, narrowHi]
    cases range.hi with
    | none => exact .inr rfl
    | some hi => exact (ite_eq_or_eq ..).symm

theorem mem_bounds {range : GapRange} {b : Bound} :
    b ∈ range.bounds ↔ (b.lower ∧ range.lo = some b.literal ∧
      b.inclusive = range.loInclusive) ∨ (b.lower = false ∧ range.hi = some b.literal ∧
      b.inclusive = range.hiInclusive) := by
  obtain ⟨literal, lower, inclusive⟩ := b
  simp only [GapRange.bounds, List.mem_append, List.mem_map, Option.mem_toList, Bound.mk.injEq]
  constructor
  · rintro (⟨lo, hlo, rfl, rfl, rfl⟩ | ⟨hi, hhi, rfl, rfl, rfl⟩)
    · exact .inl ⟨rfl, hlo, rfl⟩
    · exact .inr ⟨rfl, hhi, rfl⟩
  · rintro (⟨rfl, hlo, rfl⟩ | ⟨rfl, hhi, rfl⟩)
    · exact .inl ⟨literal, hlo, rfl, rfl, rfl⟩
    · exact .inr ⟨literal, hhi, rfl, rfl, rfl⟩

theorem narrow_bounds {range : GapRange} {b c : Bound} (hc : c ∈ (range.narrow table b).bounds) :
    c = b ∨ c ∈ range.bounds := by
  rcases narrow_cases table range b with h | h <;> rw [h] at hc
  · exact .inr hc
  · obtain ⟨literal, lower, inclusive⟩ := b
    cases lower with
    | true =>
      rcases mem_bounds.mp hc with ⟨hlower, hlo, hinclusive⟩ | hhi
      · obtain ⟨literal', lower', inclusive'⟩ := c
        cases hlower
        cases hlo
        cases hinclusive
        exact .inl rfl
      · exact .inr (mem_bounds.mpr (.inr hhi))
    | false =>
      rcases mem_bounds.mp hc with hlo | ⟨hlower, hhi, hinclusive⟩
      · exact .inr (mem_bounds.mpr (.inl hlo))
      · obtain ⟨literal', lower', inclusive'⟩ := c
        cases hlower
        cases hhi
        cases hinclusive
        exact .inl rfl

theorem foldl_narrow_bounds {c : Bound} : ∀ {bounds : List Bound} {range : GapRange},
    c ∈ (bounds.foldl (GapRange.narrow table) range).bounds → c ∈ bounds ∨ c ∈ range.bounds
  | [], _, hc => .inr hc
  | b :: bounds, range, hc => by
      have hc : c ∈ (bounds.foldl (GapRange.narrow table) (range.narrow table b)).bounds := hc
      rcases foldl_narrow_bounds hc with hc | hc
      · exact .inl (.tail _ hc)
      · rcases narrow_bounds hc with rfl | hc
        · exact .inl List.mem_cons_self
        · exact .inr hc

theorem extract_bounds {cond : CondExpr ε} {c : Bound}
    (hc : c ∈ (extractPkGapRange table (some cond) pkCol).bounds) :
    ∃ leaf ∈ cond.andLeaves, c ∈ leaf.bounds pkCol := by
  rw [extractPkGapRange, foldl_narrowLeaf] at hc
  rcases foldl_narrow_bounds hc with hc | hc
  · exact List.mem_flatMap.mp hc
  · exact nomatch hc

/-- A comparison puts no bound, one, or one on each side; the two are of one literal but for a
BETWEEN. -/
theorem bounds_cases (pkCol : Bytes) (leaf : Condition ε) :
    leaf.bounds pkCol = [] ∨ (∃ b, leaf.bounds pkCol = [b]) ∨
      ∃ lo hi, leaf.bounds pkCol = [⟨lo, true, true⟩, ⟨hi, false, true⟩] ∧
        (lo = hi ∨ leaf.op = .between) := by
  obtain ⟨left, op, value, leftClass, rightClass⟩ := leaf
  rw [Condition.bounds]
  cases left with
  | expr e => exact .inl rfl
  | column col =>
    dsimp only
    by_cases hname : col.name ≠ pkCol
    · rw [if_pos hname]
      exact .inl rfl
    · rw [if_neg hname]
      cases value with
      | literal v quoted =>
        cases op <;> first
          | exact .inl rfl
          | exact .inr (.inl ⟨_, rfl⟩)
          | exact .inr (.inr ⟨_, _, rfl, .inl rfl⟩)
      | between lo hi loQuoted hiQuoted =>
        by_cases hop : op = .between
        · exact .inr (.inr ⟨lo, hi, if_pos hop, .inr hop⟩)
        · exact .inl (if_neg hop)
      | literalList values | arith e | subquery => exact .inl rfl

theorem extract_leaf_bounds (pkCol : Bytes) (leaf : Condition ε) :
    (extractPkGapRange table (some (.leaf leaf)) pkCol).bounds = leaf.bounds pkCol := by
  rw [extractPkGapRange, foldl_narrowLeaf]
  change (List.foldl (GapRange.narrow table) _ (leaf.bounds pkCol ++ [])).bounds = _
  rw [List.append_nil]
  rcases bounds_cases pkCol leaf with hb | ⟨⟨literal, lower, inclusive⟩, hb⟩ | ⟨lo, hi, hb, -⟩
  · rw [hb]
    rfl
  · rw [hb]
    cases lower <;> rfl
  · rw [hb]
    rfl

theorem not_below (o : Ordering) (inclusive : Bool) :
    (!(o == .lt || (o == .eq && !inclusive))) = (o == .gt || (o == .eq && inclusive)) := by
  cases o <;> cases inclusive <;> rfl

theorem not_above (o : Ordering) (inclusive : Bool) :
    (!(o == .gt || (o == .eq && !inclusive))) = (o == .lt || (o == .eq && inclusive)) := by
  cases o <;> cases inclusive <;> rfl

theorem contains_iff {range : GapRange} :
    gapRangeContains table range v ↔
      ∀ b ∈ range.bounds, b.holds (cmpVal table v b.literal) := by
  obtain ⟨lo, hi, loInclusive, hiInclusive⟩ := range
  rw [gapRangeContains, Bool.and_eq_true, GapRange.bounds, List.forall_mem_append]
  refine and_congr ?_ ?_
  · cases lo with
    | none => exact iff_of_true rfl nofun
    | some lo =>
      dsimp only
      rw [not_below]
      change _ ↔ ∀ b ∈ [(⟨lo, true, loInclusive⟩ : Bound)], _
      rw [List.forall_mem_singleton]
      rfl
  · cases hi with
    | none => exact iff_of_true rfl nofun
    | some hi =>
      dsimp only
      rw [not_above]
      change _ ↔ ∀ b ∈ [(⟨hi, false, hiInclusive⟩ : Bound)], _
      rw [List.forall_mem_singleton]
      rfl

end

section

variable {ε : Type} (ev : Evaluator ε)

/-- The comparison accepts the row, and `cmp_val` puts the key within its bounds. -/
def Evaluator.SameAnswer (row : ByteRow) (pkCol key : Bytes) (leaf : Condition ε) : Prop :=
  ev.evalSingle3 row leaf = .true →
    ∀ b ∈ leaf.bounds pkCol, b.holds (cmpVal ev.table key b.literal)

/-- Whatever conditions are made of these comparisons of the key, their ranges cover the keys of the
rows that they accept, exactly if each of the comparisons alone does. -/
theorem gapRange_covers_iff (row : ByteRow) (pkCol : Bytes) (comparisons : Set (Condition ε)) :
    (∀ cond : CondExpr ε, (∀ leaf ∈ cond.andLeaves, leaf.bounds pkCol ≠ [] → leaf ∈ comparisons) →
      ev.evalCondexpr row cond → ∀ key, row.lookup pkCol = some key →
        gapRangeContains ev.table (extractPkGapRange ev.table (some cond) pkCol) key) ↔
    ∀ leaf ∈ comparisons, ∀ key, row.lookup pkCol = some key →
      ev.SameAnswer row pkCol key leaf := by
  constructor
  · intro h leaf hleaf key hkey haccepts
    have hcond := h (.leaf leaf) (fun l hl _ => by rwa [List.mem_singleton.mp hl])
      (beq_iff_eq.mpr haccepts) key hkey
    rw [contains_iff, extract_leaf_bounds] at hcond
    exact hcond
  · intro h cond hcond haccepts key hkey
    refine contains_iff.mpr fun b hb => ?_
    obtain ⟨leaf, hleaf, hbound⟩ := extract_bounds hb
    have hmem := hcond leaf hleaf (List.ne_nil_of_mem hbound)
    exact h leaf hmem key hkey (evalSingle3_of_andLeaves ev haccepts leaf hleaf) b hbound

/-- Columns and literals only, compared by the weights of ASCII. -/
def plainEvaluator : Evaluator Empty where
  table := UnicodeCollation.asciiTable
  keys := fun row => (RowJson.sortedCells row).map Prod.fst
  evalArithExact := fun _ e => e.elim
  evalArith := fun _ e => e.elim
  classOf := fun e => e.elim
  kindOf := fun e => e.elim
  singleResult := fun e => e.elim
  viewNumber := fun _ v => v
  widenSingle := fun v => v
  likeMatch := fun _ _ => false
  regexSearch := fun _ _ => none
  withSubquery := fun _ _ => .false

/-- The column `k` of a class. -/
def keyColumn (cls : ValueClass) : Column where
  name := [0x6B]
  cls := cls
  kind := .plain
  single := false

def keyRow (key : Bytes) : ByteRow :=
  Finmap.singleton [0x6B] key

/-- A comparison of the column with a literal. -/
def keyCondition (cls : ValueClass) (op : Operator) (literal : Bytes) (quoted : Bool) :
    Condition Empty where
  left := .column (keyColumn cls)
  op := op
  value := .literal literal quoted
  leftClass := .unknown
  rightClass := .unknown

/-- Whether the row with the key is accepted, and whether the range contains the key. -/
def acceptedAndContained (leaf : Condition Empty) (key : Bytes) : Bool × Bool :=
  (plainEvaluator.evalCondexpr (keyRow key) (.leaf leaf),
    gapRangeContains plainEvaluator.table
      (extractPkGapRange plainEvaluator.table (some (.leaf leaf)) [0x6B]) key)

/-- `9007199254740992`, which is `2 ^ 53`. -/
def bigText : Bytes :=
  [0x39, 0x30, 0x30, 0x37, 0x31, 0x39, 0x39, 0x32, 0x35, 0x34, 0x37, 0x34, 0x30, 0x39, 0x39, 0x32]

def bigNext : Bytes :=
  [0x39, 0x30, 0x30, 0x37, 0x31, 0x39, 0x39, 0x32, 0x35, 0x34, 0x37, 0x34, 0x30, 0x39, 0x39, 0x33]

/-- `k < '9'` accepts the text `10` and `k > 9007199254740992` the number `9007199254740993`, but
their ranges do not contain them. -/
theorem keys_escape :
    acceptedAndContained (keyCondition .text .lt [0x39] true) [0x31, 0x30] = (true, false) ∧
      acceptedAndContained (keyCondition .number .gt bigText false) bigNext = (true, false) := by
  constructor
  · decide +kernel
  · decide +kernel

end

end RusqlEngine.Where
