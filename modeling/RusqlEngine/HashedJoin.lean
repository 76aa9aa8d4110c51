import RusqlEngine.JoinExact

/-!
# The verified hash join

`hashed_join_verified` puts the rows of one side into buckets by a key, and evaluates the whole
condition only on the pairs whose keys share a bucket. Where every pair that the condition accepts
has such keys, it gives the rows of the nested loop in the same order, padded rows included.
-/

namespace RusqlEngine.Join

open Buffer (Bytes)

variable (weights : UnicodeCollation.Table) (ord : RowOrder)

/-- `norm`: texts are hashed by the collation, anything else by its number. -/
def hashedNorm (exactKeys : Bool) (key : Bytes) : Bytes :=
  if exactKeys then UnicodeCollation.key weights key
  else NumericKey.normalizeNumericKey weights key

/-- What a row is hashed by; NULL is not. -/
def hashedKey (exactKeys : Bool) (key : Option Bytes) : Option Bytes :=
  key.bind fun key => if key ≠ joinNullValue then some (hashedNorm weights exactKeys key) else none

/-- The rows of a side with their indexes, by their keys. -/
def hashedRows (exactKeys : Bool) (key : ByteRow → Option Bytes) (rows : List ByteRow) :
    Finmap fun _ : Bytes => List (ByteRow × ℕ) :=
  Joins.bucketsOf (fun row => hashedKey weights exactKeys (key row.1)) rows.zipIdx

/-- The rows in the bucket of a key that pass the condition. -/
def hashedMatches (byKey : Finmap fun _ : Bytes => List (ByteRow × ℕ)) (key : Option Bytes)
    (onMatch : ByteRow → Bool) : List (ByteRow × ℕ) :=
  ((key.bind byKey.lookup).getD []).filter fun row => onMatch row.1

def hashedJoinVerified (left right : List ByteRow) (table : Bytes) (joinType : JoinType)
    (leftKey rightKey : ByteRow → Option Bytes) (rightSchemaCols : List Bytes)
    (onMatch : ByteRow → Bool) (leftPad : Option (List Bytes)) (exactKeys : Bool) :
    Option (List ByteRow) :=
  if joinType = .cross ∨ joinType = .natural then none
  else if right.any (fun r => rightKey r = none) then none
  else if left.any (fun l => leftKey l = none) then none
  else
    let merge := fun l r => mergeRight ord l r table
    let leftCols := leftPad.getD (nonQualifiedKeys ord left.head?)
    let padRight := fun r => merge (padLeft leftCols) r
    if joinType = .right then
      let byKey := hashedRows weights exactKeys leftKey left
      some (right.flatMap fun r =>
        orPadded ((hashedMatches byKey (hashedKey weights exactKeys (rightKey r))
          fun l => onMatch (merge l r)).map fun l => merge l.1 r) (padRight r))
    else
      let byKey := hashedRows weights exactKeys rightKey right
      let found := fun l => hashedMatches byKey (hashedKey weights exactKeys (leftKey l))
        fun r => onMatch (merge l r)
      let joined := fun l => (found l).map fun r => merge l r.1
      if joinType = .inner then some (left.flatMap joined)
      else
        let out := left.flatMap fun l => orPadded (joined l) (nullRight l rightSchemaCols table)
        if joinType = .left then some out
        else
          let rightMatched := left.flatMap fun l => (found l).map Prod.snd
          some (out ++ (right.zipIdx.filter fun r => r.2 ∉ rightMatched).map fun r => padRight r.1)

variable {weights} {ord} {exactKeys : Bool} {leftKey rightKey : ByteRow → Option Bytes}
  {rows : List ByteRow} {key : ByteRow → Option Bytes}

theorem any_unread (h : ∀ row ∈ rows, (key row).isSome) :
    rows.any (fun row => key row = none) = false := by
  rw [List.any_eq_false]
  intro row hrow
  rw [decide_eq_true_eq]
  exact Option.isSome_iff_ne_none.mp (h row hrow)

/-- Both keys are there and not NULL, and they are in one bucket. -/
def SharedKeys (weights : UnicodeCollation.Table) (exactKeys : Bool) (a b : Option Bytes) : Prop :=
  ∃ k k', a = some k ∧ b = some k' ∧ k ≠ joinNullValue ∧ k' ≠ joinNullValue ∧
    hashedNorm weights exactKeys k = hashedNorm weights exactKeys k'

theorem SharedKeys.hashedKey {a b : Option Bytes} (h : SharedKeys weights exactKeys a b) :
    (hashedKey weights exactKeys a).isSome ∧
      hashedKey weights exactKeys a = hashedKey weights exactKeys b := by
  obtain ⟨k, k', rfl, rfl, hk, hk', hnorm⟩ := h
  simp only [Join.hashedKey, Option.bind_some, if_pos hk, if_pos hk', hnorm, Option.isSome_some,
    true_and]

theorem hashedMatches_eq {k : Option Bytes} {onMatch : ByteRow → Bool}
    (h : ∀ row ∈ rows, onMatch row → SharedKeys weights exactKeys k (key row)) :
    hashedMatches (hashedRows weights exactKeys key rows) (hashedKey weights exactKeys k) onMatch =
      rows.zipIdx.filter fun row => onMatch row.1 := by
  rw [hashedMatches, hashedRows, Joins.bind_lookup_bucketsOf, List.filter_filter]
  refine List.filter_congr fun row hrow => ?_
  cases hon : onMatch row.1 with
  | false => rw [Bool.false_and]
  | true =>
    obtain ⟨hsome, heq⟩ := (h row.1 (List.fst_mem_of_mem_zipIdx hrow) hon).hashedKey
    rw [hsome, ← heq, Bool.true_and, Bool.true_and, decide_eq_true_eq]

theorem map_hashedMatches {k : Option Bytes} {accepts : ByteRow → Bool} {f : ByteRow → ByteRow}
    (h : ∀ row ∈ rows, accepts (f row) → SharedKeys weights exactKeys k (key row)) :
    (hashedMatches (hashedRows weights exactKeys key rows) (hashedKey weights exactKeys k)
      fun row => accepts (f row)).map (fun row => f row.1) = (rows.map f).filter accepts := by
  rw [hashedMatches_eq h, List.filter_map,
    ← Joins.map_fst_filter_zipIdx rows (accepts ∘ f), List.map_map]
  rfl

theorem SharedKeys.symm {a b : Option Bytes} (h : SharedKeys weights exactKeys a b) :
    SharedKeys weights exactKeys b a := by
  obtain ⟨k, k', ha, hb, hk, hk', hnorm⟩ := h
  exact ⟨k', k, hb, ha, hk', hk, hnorm.symm⟩

section

variable {left right : List ByteRow} {table : Bytes} {joinType : JoinType}
  {rightSchemaCols : List Bytes} {onMatch : ByteRow → Bool} {leftPad : Option (List Bytes)}

theorem filter_notMem_found {found : ByteRow → List (ByteRow × ℕ)} {p : ByteRow → ByteRow → Bool}
    (h : ∀ l ∈ left, found l = right.zipIdx.filter fun r => p l r.1) :
    (right.zipIdx.filter fun r => r.2 ∉ left.flatMap fun l => (found l).map Prod.snd) =
      right.zipIdx.filter fun r => !left.any fun l => p l r.1 := by
  refine List.filter_congr fun r hr => ?_
  rw [Bool.eq_iff_iff, decide_eq_true_eq, Bool.not_eq_true', List.any_eq_false]
  simp only [List.mem_flatMap, List.mem_map, not_exists, not_and]
  constructor
  · intro hnone l hl hp
    refine hnone l hl r ?_ rfl
    rw [h l hl]
    exact List.mem_filter.mpr ⟨hr, hp⟩
  · intro hnone l hl r' hr' hindex
    rw [h l hl] at hr'
    obtain ⟨hmem, hp⟩ := List.mem_filter.mp hr'
    rw [Joins.eq_of_mem_zipIdx hmem hr hindex] at hp
    exact hnone l hl hp

/-- The verified hash join is the nested loop, row for row, when the condition accepts only pairs
whose keys share a bucket. -/
theorem hashedJoinVerified_eq (htype : joinType ≠ .cross ∧ joinType ≠ .natural)
    (hleft : ∀ l ∈ left, (leftKey l).isSome) (hright : ∀ r ∈ right, (rightKey r).isSome)
    (hon : ∀ l ∈ left, ∀ r ∈ right, onMatch (mergeRight ord l r table) →
      SharedKeys weights exactKeys (leftKey l) (rightKey r)) :
    hashedJoinVerified weights ord left right table joinType leftKey rightKey rightSchemaCols
        onMatch leftPad exactKeys =
      some (nestedLoopJoin ord left right joinType table [] rightSchemaCols onMatch leftPad
        none) := by
  have hfound := fun l (hl : l ∈ left) => hashedMatches_eq (hon l hl)
  have hjoined := fun l (hl : l ∈ left) => map_hashedMatches (f := fun r =>
    mergeRight ord l r table) (hon l hl)
  have hjoinedLeft := fun r (hr : r ∈ right) => map_hashedMatches (f := fun l =>
    mergeRight ord l r table) (fun l hl hmatch => (hon l hl r hr hmatch).symm)
  have hloop : (left.flatMap fun l => orPadded
      ((hashedMatches (hashedRows weights exactKeys rightKey right)
        (hashedKey weights exactKeys (leftKey l))
          fun r => onMatch (mergeRight ord l r table)).map fun r => mergeRight ord l r.1 table)
      (nullRight l rightSchemaCols table)) =
      left.flatMap fun l => orPadded ((right.map fun r => mergeRight ord l r table).filter onMatch)
        (nullRight l rightSchemaCols table) :=
    List.flatMap_congr fun l hl => by rw [hjoined l hl]
  rw [hashedJoinVerified, if_neg (not_or.mpr htype), any_unread hright, any_unread hleft,
    if_neg Bool.false_ne_true, if_neg Bool.false_ne_true]
  cases joinType with
  | inner =>
    refine congrArg some (List.flatMap_congr fun l hl => (hjoined l hl).trans ?_)
    simp only [Option.elim_none, Bool.and_true]
  | left => exact congrArg some hloop
  | right =>
    refine congrArg some (List.flatMap_congr fun r hr => ?_)
    dsimp only
    rw [hjoinedLeft r hr]
  | cross => exact absurd rfl htype.1
  | natural => exact absurd rfl htype.2
  | fullOuter =>
    refine congrArg some (congrArg₂ _ hloop ?_)
    dsimp only
    rw [filter_notMem_found (p := fun l r => onMatch (mergeRight ord l r table)) hfound,
      ← Joins.map_fst_filter_zipIdx right, List.map_map]
    rfl

/-- A full join of `7` with `7.0` and `8`. -/
theorem hashedJoinVerified_sevens :
    hashedJoinVerified UnicodeCollation.asciiTable ascendingKeys [keyRow [0x37]]
        [keyRow [0x37, 0x2E, 0x30], keyRow [0x38]] [0x72] .fullOuter (·.lookup [0x6B])
        (·.lookup [0x6B]) [[0x6B]] (onKeys UnicodeCollation.asciiTable [0x72] [0x6B] [0x6B]) none
        false =
      some (nestedLoopJoin ascendingKeys [keyRow [0x37]]
        [keyRow [0x37, 0x2E, 0x30], keyRow [0x38]] .fullOuter [0x72] [] [[0x6B]]
        (onKeys UnicodeCollation.asciiTable [0x72] [0x6B] [0x6B]) none none) := by
  refine hashedJoinVerified_eq (by decide) (by decide) (by decide) ?_
  intro l hl r hr hmatch
  obtain rfl := List.mem_singleton.mp hl
  rcases List.mem_pair.mp hr with rfl | rfl
  · exact ⟨[0x37], [0x37, 0x2E, 0x30], by decide, by decide, by decide, by decide,
      by decide +kernel⟩
  · exact absurd hmatch (by decide +kernel)

end

end RusqlEngine.Join
