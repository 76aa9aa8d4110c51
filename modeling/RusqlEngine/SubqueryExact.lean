import RusqlEngine.SelectPipeline
import RusqlEngine.Subquery

/-!
# When the subquery predicates follow their definitions

The caches never show: a condition is answered as its first evaluation answers it. `op ANY` and `op
ALL` are the three-valued OR and AND of the comparisons. `IN` compares by a key, or by the left
class with itself, where `=` goes by the classes of both sides; `EXISTS` looks for a mark in the
whole text of the answer.
-/

namespace RusqlEngine.Subquery

open ResultText Function

/-! ### The caches -/

section

variable {κ ρ : Type} {c : Comparer} {program : Program κ ρ}

/-- Everything kept was read from what the subquery prints in the statement it is kept for. -/
structure Caches.Valid (c : Comparer) (program : Program κ ρ) (caches : Caches κ) : Prop where
  exists_kept : ∀ k has, caches.existsKept k = some has →
    ∃ output, program.run caches.cacheStatement caches.cacheWrites k none = .ok output ∧
      has = hasRows output
  in_kept : ∀ k keys, caches.inKept k = some keys →
    ∃ output negated left right,
      program.run caches.cacheStatement caches.cacheWrites k none = .ok output ∧
      program.shape caches.cacheStatement k = .isIn negated left right ∧
      keys = (values output).map (c.inKey left)
  scalar_kept : ∀ k vals, caches.scalarKept k = some vals →
    ∃ output, program.run caches.cacheStatement caches.cacheWrites k none = .ok output ∧
      scalars (program.shape caches.cacheStatement k) output = .ok vals

theorem Caches.valid_fresh (statement writes : Nat) :
    (Caches.fresh statement writes : Caches κ).Valid c program where
  exists_kept _ _ h := nomatch h
  in_kept _ _ h := nomatch h
  scalar_kept _ _ h := nomatch h

theorem Caches.Valid.sync {caches : Caches κ} (h : caches.Valid c program)
    (statement writes : Nat) : (caches.sync statement writes).Valid c program := by
  unfold Caches.sync
  split_ifs
  · exact h
  · exact Caches.valid_fresh statement writes

theorem Caches.sync_numbers (caches : Caches κ) (statement writes : Nat) :
    (caches.sync statement writes).cacheStatement = statement ∧
      (caches.sync statement writes).cacheWrites = writes := by
  unfold Caches.sync
  split_ifs with h
  · exact ⟨h.1.symm, h.2.symm⟩
  · exact ⟨rfl, rfl⟩

theorem Program.output_uncorrelated {statement writes : Nat} {k : κ} {row : ρ}
    (h : program.correlated statement k = false) :
    program.output statement writes k row = program.run statement writes k none := by
  rw [Program.output, h]
  rfl

variable [DecidableEq κ] {caches : Caches κ}

theorem Caches.Valid.keepExists (h : caches.Valid c program) {k : κ} {output : List Char}
    (hout : program.run caches.cacheStatement caches.cacheWrites k none = .ok output) :
    Caches.Valid c program { caches with
      existsKept := update caches.existsKept k (some (hasRows output)) } := by
  refine ⟨fun k' has hk' => ?_, h.in_kept, h.scalar_kept⟩
  dsimp only at hk'
  by_cases hkk : k' = k
  · subst hkk
    rw [update_self] at hk'
    exact ⟨output, hout, (Option.some.inj hk').symm⟩
  · rw [update_of_ne hkk] at hk'
    exact h.exists_kept k' has hk'

theorem Caches.Valid.keepIn (h : caches.Valid c program) {k : κ} {output : List Char}
    {negated : Bool} {left right : ValueClass}
    (hshape : program.shape caches.cacheStatement k = .isIn negated left right)
    (hout : program.run caches.cacheStatement caches.cacheWrites k none = .ok output) :
    Caches.Valid c program { caches with
      inKept := update caches.inKept k (some ((values output).map (c.inKey left))) } := by
  refine ⟨h.exists_kept, fun k' keys hk' => ?_, h.scalar_kept⟩
  dsimp only at hk'
  by_cases hkk : k' = k
  · subst hkk
    rw [update_self] at hk'
    exact ⟨output, negated, left, right, hout, hshape, (Option.some.inj hk').symm⟩
  · rw [update_of_ne hkk] at hk'
    exact h.in_kept k' keys hk'

theorem Caches.Valid.keepScalars (h : caches.Valid c program) {k : κ} {output : List Char}
    {vals : List String}
    (hout : program.run caches.cacheStatement caches.cacheWrites k none = .ok output)
    (hvals : scalars (program.shape caches.cacheStatement k) output = .ok vals) :
    Caches.Valid c program { caches with
      scalarKept := update caches.scalarKept k (some vals) } := by
  refine ⟨h.exists_kept, h.in_kept, fun k' vals' hk' => ?_⟩
  dsimp only at hk'
  by_cases hkk : k' = k
  · subst hkk
    rw [update_self] at hk'
    exact ⟨output, hout, hvals.trans (congrArg _ (Option.some.inj hk'))⟩
  · rw [update_of_ne hkk] at hk'
    exact h.scalar_kept k' vals' hk'

theorem evalExists_spec (h : caches.Valid c program) (negated : Bool) (k : κ) (row : ρ) :
    (evalExists program negated caches.cacheStatement caches.cacheWrites caches k row).1 =
        (program.output caches.cacheStatement caches.cacheWrites k row).bind
          (fun output => .ok (tri (hasRows output != negated))) ∧
      (evalExists program negated caches.cacheStatement caches.cacheWrites caches k row).2.Valid
        c program := by
  unfold evalExists
  cases hcorr : program.correlated caches.cacheStatement k with
  | true =>
    cases hout : program.output caches.cacheStatement caches.cacheWrites k row with
    | error e | ok output => exact ⟨rfl, h⟩
  | false =>
    simp only [Bool.false_eq_true, if_false]
    cases hkept : caches.existsKept k with
    | some has =>
      obtain ⟨output, hout, rfl⟩ := h.exists_kept k has hkept
      rw [Program.output_uncorrelated hcorr, hout]
      exact ⟨rfl, h⟩
    | none =>
      cases hout : program.output caches.cacheStatement caches.cacheWrites k row with
      | error e => exact ⟨rfl, h⟩
      | ok output =>
        rw [Program.output_uncorrelated hcorr] at hout
        exact ⟨rfl, h.keepExists hout⟩

theorem evalIn_spec (h : caches.Valid c program) {negated : Bool} {left right : ValueClass}
    {k : κ} (hshape : program.shape caches.cacheStatement k = .isIn negated left right)
    (hcorr : program.correlated caches.cacheStatement k = false) (row : ρ) :
    (evalIn c program negated left caches.cacheStatement caches.cacheWrites caches k row).1 =
        (program.output caches.cacheStatement caches.cacheWrites k row).bind
          (fun output => .ok (inKeys c negated left
            ((program.left caches.cacheStatement k row).headD "")
            ((values output).map (c.inKey left)))) ∧
      (evalIn c program negated left caches.cacheStatement caches.cacheWrites caches k
        row).2.Valid c program := by
  unfold evalIn
  cases hkept : caches.inKept k with
  | some keys =>
    obtain ⟨output, negated', left', right', hout, hshape', rfl⟩ := h.in_kept k keys hkept
    obtain ⟨rfl, rfl, rfl⟩ : negated = negated' ∧ left = left' ∧ right = right' := by
      simpa using hshape.symm.trans hshape'
    rw [Program.output_uncorrelated hcorr, hout]
    exact ⟨rfl, h⟩
  | none =>
    cases hout : program.output caches.cacheStatement caches.cacheWrites k row with
    | error e => exact ⟨rfl, h⟩
    | ok output =>
      rw [Program.output_uncorrelated hcorr] at hout
      exact ⟨rfl, h.keepIn hshape hout⟩

theorem evalScalars_spec (h : caches.Valid c program) (k : κ) (row : ρ)
    (hopen : isOpen (program.shape caches.cacheStatement k)
      (program.left caches.cacheStatement k row) = false) :
    (evalScalars c program caches.cacheStatement caches.cacheWrites caches k row).1 =
        (program.output caches.cacheStatement caches.cacheWrites k row).bind
          (fun output => (scalars (program.shape caches.cacheStatement k) output).bind
            (fromScalars c (program.shape caches.cacheStatement k)
              (program.left caches.cacheStatement k row))) ∧
      (evalScalars c program caches.cacheStatement caches.cacheWrites caches k row).2.Valid
        c program := by
  have hbind : ∀ (f : List String → Except String Tri),
      (program.output caches.cacheStatement caches.cacheWrites k row).bind
        (fun output => (scalars (program.shape caches.cacheStatement k) output).bind f) =
      ((program.output caches.cacheStatement caches.cacheWrites k row).bind
        (scalars (program.shape caches.cacheStatement k))).bind f := by
    intro f
    cases program.output caches.cacheStatement caches.cacheWrites k row <;> rfl
  simp only [evalScalars, hopen, Bool.false_eq_true, if_false, hbind]
  cases hcorr : program.correlated caches.cacheStatement k with
  | true =>
    simp only [if_true]
    cases hvals : (program.output caches.cacheStatement caches.cacheWrites k row).bind
        (scalars (program.shape caches.cacheStatement k)) with
    | error e | ok vals => exact ⟨rfl, h⟩
  | false =>
    rw [Program.output_uncorrelated hcorr]
    simp only [Bool.false_eq_true, if_false]
    cases hkept : caches.scalarKept k with
    | some vals =>
      obtain ⟨output, hout, hvals⟩ := h.scalar_kept k vals hkept
      rw [hout]
      simp only [Except.bind, hvals]
      exact ⟨trivial, h⟩
    | none =>
      cases hout : program.run caches.cacheStatement caches.cacheWrites k none with
      | error e => exact ⟨rfl, h⟩
      | ok output =>
        simp only [Except.bind]
        cases hvals : scalars (program.shape caches.cacheStatement k) output with
        | error e => exact ⟨rfl, h⟩
        | ok vals =>
          exact ⟨rfl, h.keepScalars hout hvals⟩

theorem evalKept_spec (h : caches.Valid c program) (k : κ) (row : ρ) :
    (evalKept c program caches.cacheStatement caches.cacheWrites caches k row).1 =
        evalFirst c program caches.cacheStatement caches.cacheWrites k row ∧
      (evalKept c program caches.cacheStatement caches.cacheWrites caches k row).2.Valid
        c program := by
  have hscalars : isOpen (program.shape caches.cacheStatement k)
      (program.left caches.cacheStatement k row) →
      evalScalars c program caches.cacheStatement caches.cacheWrites caches k row =
        (.ok .unknown, caches) := by
    intro hopen
    simp [evalScalars, hopen]
  unfold evalKept evalFirst
  cases hshape : program.shape caches.cacheStatement k with
  | «exists» negated =>
    have hspec := evalExists_spec h negated k row
    exact ⟨hspec.1, hspec.2⟩
  | isIn negated left right =>
    cases hcorr : program.correlated caches.cacheStatement k with
    | true =>
      have hspec := evalScalars_spec h k row (by rw [hshape]; rfl)
      rw [hshape] at hspec
      exact ⟨hspec.1, hspec.2⟩
    | false =>
      have hspec := evalIn_spec h hshape hcorr row
      exact ⟨hspec.1, hspec.2⟩
  | rowIn negated classes =>
    have hspec := evalScalars_spec h k row (by rw [hshape]; rfl)
    rw [hshape] at hspec
    exact ⟨hspec.1, hspec.2⟩
  | compare op quantifier left right =>
    cases hopen : isOpen (program.shape caches.cacheStatement k)
        (program.left caches.cacheStatement k row) with
    | true =>
      rw [hscalars hopen]
      rw [hshape] at hopen
      simp only [hopen, if_true]
      exact ⟨trivial, h⟩
    | false =>
      have hspec := evalScalars_spec h k row hopen
      rw [hshape] at hspec hopen
      simp only [hopen, Bool.false_eq_true, if_false]
      exact ⟨hspec.1, hspec.2⟩

theorem evalSingle_spec (h : caches.Valid c program) (statement writes : Nat) (k : κ) (row : ρ) :
    (evalSingle c program statement writes caches k row).1 =
        evalFirst c program statement writes k row ∧
      (evalSingle c program statement writes caches k row).2.Valid c program := by
  have hspec := evalKept_spec (h.sync statement writes) k row
  obtain ⟨hst, hwr⟩ := caches.sync_numbers statement writes
  rw [hst, hwr] at hspec
  exact hspec

theorem valid_of_reaches {s s' : State κ} (hs : s.caches.Valid c program)
    (h : Transition.Reaches (step c program) Transition.anyStep s s') :
    s'.caches.Valid c program := by
  refine Transition.Reaches.invariant (P := fun s => s.caches.Valid c program) ?_ hs h
  intro s a s' hs _ hstep
  cases a with
  | evaluate k row =>
    obtain rfl := Option.some.inj hstep
    exact (evalSingle_spec hs s.statement s.writes k row).2
  | statement n | write =>
    obtain rfl := Option.some.inj hstep
    exact hs

end

/-! ### The definitions of the predicates -/

def triOr (ts : List Tri) : Tri :=
  if .true ∈ ts then .true else if .unknown ∈ ts then .unknown else .false

def triAnd (ts : List Tri) : Tri :=
  if .false ∈ ts then .false else if .unknown ∈ ts then .unknown else .true

section

variable (c : Comparer)

/-- The three-valued comparison of two values, by the classes of both. -/
def compare3 (op : CmpOp) (left right : ValueClass) (x v : String) : Tri :=
  if x ≠ executorNull ∧ v ≠ executorNull then tri (op.holds (c.compareClassed left right x v))
  else .unknown

/-- The AND of the equalities of a row with the columns of an answer. -/
def equalRow (mine : List (String × ValueClass)) (rights : List ValueClass) (r : List String) :
    Tri :=
  triAnd (List.zipWith (fun e other => compare3 c .eq e.1.2 e.2 e.1.1 other) (mine.zip rights) r)

/-- Whether a value of the answer is the value on the left for `IN`. -/
def sameMember (correlated : Bool) (left : ValueClass) (x v : String) : Bool :=
  if correlated then c.inEqual left v x else c.inKey left v == c.inKey left x

end

variable {c : Comparer} {op : CmpOp} {left right : ValueClass} {x : String}

theorem tri_ne_unknown (b : Bool) : tri b ≠ .unknown := by
  cases b <;> simp [tri]

theorem quantified_eq (any : Bool) (vals : List String) (opened : Bool) :
    quantified c any op left right x vals opened =
      (if any then triOr else triAnd) (tri (!any) :: (if opened then [.unknown] else []) ++
        vals.map (compare3 c op left right x)) := by
  induction vals generalizing opened with
  | nil => cases any <;> cases opened <;> rfl
  | cons v vals ih =>
    have ht : (if x ≠ executorNull ∧ v ≠ executorNull then
        tri (op.holds (c.compareClassed left right x v)) else .unknown) =
          compare3 c op left right x v := rfl
    rw [quantified]
    simp only [ht, ih]
    cases any <;> cases hv : compare3 c op left right x v <;> cases opened <;>
      simp [triOr, triAnd, tri, hv]

theorem compareValues_any (vals : List String) :
    compareValues c op .any left right x vals =
      .ok (triOr (vals.map (compare3 c op left right x))) := by
  rw [compareValues]
  split_ifs with h
  · subst h
    rfl
  · rw [quantified_eq]
    simp [triOr, tri]

theorem compareValues_all (vals : List String) :
    compareValues c op .all left right x vals =
      .ok (triAnd (vals.map (compare3 c op left right x))) := by
  rw [compareValues]
  split_ifs with h
  · subst h
    rfl
  · rw [quantified_eq]
    simp [triAnd, tri]

theorem compare3_eq_tri_iff (hx : x ≠ executorNull) {v : String} {b : Bool} :
    compare3 c op left right x v = tri b ↔
      v ≠ executorNull ∧ op.holds (c.compareClassed left right x v) = b := by
  rw [compare3]
  by_cases hv : v = executorNull
  · simp only [hv, ne_eq, not_true_eq_false, and_false, if_false, false_and, iff_false]
    exact (tri_ne_unknown b).symm
  · rw [if_pos ⟨hx, hv⟩]
    cases b <;> simp [tri, hv]

theorem compare3_eq_unknown_iff (hx : x ≠ executorNull) {v : String} :
    compare3 c op left right x v = .unknown ↔ v = executorNull := by
  rw [compare3]
  by_cases hv : v = executorNull
  · simp [hv]
  · rw [if_pos ⟨hx, hv⟩]
    exact iff_of_false (tri_ne_unknown _) hv

theorem compare3_null (v : String) : compare3 c op left right executorNull v = .unknown := by
  simp [compare3]

theorem tri_mem_compare3 (hx : x ≠ executorNull) {vals : List String} {b : Bool} :
    tri b ∈ vals.map (compare3 c op left right x) ↔
      ∃ v ∈ vals, v ≠ executorNull ∧ op.holds (c.compareClassed left right x v) = b := by
  simp only [List.mem_map, compare3_eq_tri_iff hx]

theorem unknown_mem_compare3 (hx : x ≠ executorNull) {vals : List String} :
    .unknown ∈ vals.map (compare3 c op left right x) ↔ executorNull ∈ vals := by
  simp only [List.mem_map, compare3_eq_unknown_iff hx, exists_eq_right]

theorem triOr_eq_membership (vals : List String) :
    triOr (vals.map (compare3 c .eq left right x)) =
      membership false (x == executorNull)
        (vals.any fun v => v != executorNull && c.compareClassed left right x v == .eq)
        (vals.contains executorNull) vals.isEmpty := by
  by_cases hx : x = executorNull
  · subst hx
    cases vals with
    | nil => rfl
    | cons v vals => simp [triOr, membership, compare3_null]
  · have hany : .true ∈ vals.map (compare3 c .eq left right x) ↔
        (vals.any fun v => v != executorNull && c.compareClassed left right x v == .eq) =
          true := by
      rw [show Tri.true = tri true from rfl, tri_mem_compare3 hx]
      simp [CmpOp.holds]
    rw [triOr, membership]
    simp only [hany, unknown_mem_compare3 hx, beq_false_of_ne hx, Bool.false_eq_true, if_false,
      List.contains_iff_mem, Bool.not_false]
    rfl

theorem triAnd_eq_membership (vals : List String) :
    triAnd (vals.map (compare3 c .ne left right x)) =
      membership true (x == executorNull)
        (vals.any fun v => v != executorNull && c.compareClassed left right x v == .eq)
        (vals.contains executorNull) vals.isEmpty := by
  by_cases hx : x = executorNull
  · subst hx
    cases vals with
    | nil => rfl
    | cons v vals => simp [triAnd, membership, compare3_null]
  · have hany : .false ∈ vals.map (compare3 c .ne left right x) ↔
        (vals.any fun v => v != executorNull && c.compareClassed left right x v == .eq) =
          true := by
      rw [show Tri.false = tri false from rfl, tri_mem_compare3 hx]
      simp [CmpOp.holds]
    rw [triAnd, membership]
    simp only [hany, unknown_mem_compare3 hx, beq_false_of_ne hx, Bool.false_eq_true, if_false,
      List.contains_iff_mem, Bool.not_true]
    rfl

theorem membership_inj {negated leftNull contains contains' hasNull empty : Bool} :
    membership negated leftNull contains hasNull empty =
        membership negated leftNull contains' hasNull empty ↔
      (leftNull = false → contains = contains') := by
  cases negated <;> cases leftNull <;> cases contains <;> cases contains' <;> cases hasNull <;>
    cases empty <;> simp [membership, tri]

theorem membership_negated (leftNull contains hasNull empty : Bool) :
    membership true leftNull contains hasNull empty =
      triNot (membership false leftNull contains hasNull empty) := by
  cases leftNull <;> cases contains <;> cases hasNull <;> cases empty <;> rfl

theorem toString_ne_null (n : Int) : toString n ≠ executorNull := by
  intro h
  have hmem : 'L' ∈ (toString n).toList := by
    rw [h]
    decide
  have hdigits : ∀ m : Nat, 'L' ∉ (Nat.repr m).toList := by
    intro m hm
    rw [Nat.toList_repr] at hm
    exact absurd (Nat.isDigit_of_mem_toDigits (by decide) (by decide) hm) (by decide)
  cases n with
  | ofNat m => exact hdigits m hmem
  | negSucc m =>
    have hneg : toString (Int.negSucc m) = "-" ++ Nat.repr (m + 1) := rfl
    rw [hneg, String.toList_append, List.mem_append] at hmem
    rcases hmem with hsign | hrest
    · exact absurd hsign (by decide)
    · exact hdigits (m + 1) hrest

theorem Comparer.inKey_eq_null_iff {v : String} :
    c.inKey left v = executorNull ↔ v = executorNull := by
  refine ⟨fun h => ?_, fun h => by simp [Comparer.inKey, h]⟩
  by_contra hv
  rw [Comparer.inKey, if_neg hv] at h
  split_ifs at h
  · exact c.key_ne_null v hv h
  · rw [Comparer.normalizeNumericKey] at h
    split at h
    · exact toString_ne_null _ h
    · split at h
      · exact c.key_ne_null v hv h
      · split_ifs at h
        · exact toString_ne_null _ h
        · exact c.showDouble_ne_null _ h

theorem inKeys_eq_membership (negated : Bool) (vals : List String) :
    inKeys c negated left x (vals.map (c.inKey left)) =
      membership negated (x == executorNull)
        (vals.any fun v => v != executorNull && sameMember c false left x v)
        (vals.contains executorNull) vals.isEmpty := by
  have hnull : (vals.map (c.inKey left)).contains executorNull =
      vals.contains executorNull := by
    rw [Bool.eq_iff_iff, List.contains_iff_mem, List.contains_iff_mem]
    simp only [List.mem_map, Comparer.inKey_eq_null_iff, exists_eq_right]
  rw [inKeys, hnull, List.isEmpty_map, membership_inj]
  intro hx
  have hx' : x ≠ executorNull := by simpa using hx
  rw [Bool.eq_iff_iff, List.contains_iff_mem, List.any_eq_true, List.mem_map]
  refine exists_congr fun v => and_congr_right fun _ => ?_
  rw [sameMember, Bool.and_eq_true, bne_iff_ne, if_neg (by decide), beq_iff_eq]
  refine ⟨fun h => ⟨fun hv => hx' ?_, h⟩, fun h => h.2⟩
  rw [hv] at h
  exact Comparer.inKey_eq_null_iff.mp (h.symm.trans (Comparer.inKey_eq_null_iff.mpr rfl))

theorem inValues_eq_membership (negated : Bool) (vals : List String) :
    inValues c negated left x vals =
      membership negated (x == executorNull)
        (vals.any fun v => v != executorNull && sameMember c true left x v)
        (vals.contains executorNull) vals.isEmpty :=
  rfl

/-! ### Rows on the left -/

theorem sameRow_false (mine : List (String × ValueClass)) (r : List String) :
    sameRow c mine r .false = .false := by
  cases mine with
  | nil => simp [sameRow]
  | cons e mine =>
    obtain ⟨m, cls⟩ := e
    cases r with
    | nil => simp [sameRow]
    | cons o r => simp [sameRow]

theorem sameRow_eq (mine : List (String × ValueClass)) (r : List String) (same : Tri) :
    sameRow c mine r same =
      triAnd (same :: List.zipWith (fun e other => compare3 c .eq e.2 e.2 e.1 other) mine r) := by
  induction mine generalizing r same with
  | nil => cases same <;> simp [sameRow, triAnd]
  | cons e mine ih =>
    obtain ⟨m, cls⟩ := e
    cases r with
    | nil => cases same <;> simp [sameRow, triAnd]
    | cons o r =>
      rw [sameRow, List.zipWith_cons_cons]
      by_cases hsame : same = .false
      · rw [if_pos hsame, hsame]
        simp [triAnd]
      · rw [if_neg hsame]
        by_cases hnull : m = executorNull ∨ o = executorNull
        · have hopen : compare3 c .eq cls cls m o = .unknown := by
            rw [compare3, if_neg (by tauto)]
          rw [if_pos hnull, ih, hopen]
          cases same <;> simp_all [triAnd]
        · have hval : compare3 c .eq cls cls m o =
              tri (c.compareClassed cls cls m o == .eq) := by
            rw [compare3, if_pos (by tauto)]
            rfl
          rw [if_neg hnull, hval]
          by_cases heq : c.compareClassed cls cls m o = .eq
          · rw [if_neg (by simpa using heq), ih]
            cases same <;> simp [heq, triAnd, tri]
          · rw [if_pos heq, sameRow_false]
            simp [heq, triAnd, tri]

theorem rowIn_eq (mine : List (String × ValueClass)) (rows : List (List String)) (found : Tri) :
    rowIn c mine rows found = triOr (found :: rows.map fun r => sameRow c mine r .true) := by
  induction rows generalizing found with
  | nil => cases found <;> simp [rowIn, triOr]
  | cons r rows ih =>
    rw [rowIn]
    by_cases hfound : found = .true
    · rw [if_pos hfound, hfound]
      simp [triOr]
    · rw [if_neg hfound]
      cases hr : sameRow c mine r .true <;> cases found <;> simp_all [triOr]

theorem takeRows_flatten {width : Nat} (hwidth : 0 < width) {rows : List (List String)}
    (h : ∀ r ∈ rows, r.length = width) {n : Nat} (hn : rows.length ≤ n) :
    takeRows width n rows.flatten = rows := by
  induction rows generalizing n with
  | nil =>
    cases n with
    | zero => rfl
    | succ n => simp [takeRows, hwidth.ne']
  | cons r rows ih =>
    cases n with
    | zero => exact absurd hn (by simp)
    | succ n =>
      have hr := h r List.mem_cons_self
      rw [takeRows, List.flatten_cons, if_pos (by simp [hr]), ← hr, List.take_left',
        List.drop_left', hr, ih (fun x hx => h x (.tail _ hx)) (by simpa using hn)]
      · rfl
      · rfl

/-! ### When the definitions are met -/

/-- A value and a row with their classes: `one` answers for the value, `many` for the row, whose
columns have the classes `rights`. -/
structure Question where
  x : String
  left : ValueClass
  right : ValueClass
  one : ResultText.Answer
  mine : List (String × ValueClass)
  rights : List ValueClass
  many : ResultText.Answer
  correlated : Bool
  mine_ne_nil : mine ≠ []
  rights_length : rights.length = mine.length
  columns_length : many.columns.length = mine.length

namespace Question

def vals (q : Question) : List String :=
  q.one.rows.map fun r => String.ofList (r.headD [])

def rows (q : Question) : List (List String) :=
  q.many.rows.map fun r => r.map String.ofList

variable (c : Comparer) (q : Question)

def answer (shape : Shape) : Except String Tri :=
  firstPath c shape [q.x] q.correlated q.one.text

/-- The answer of a condition on the row. -/
def rowAnswer (negated : Bool) : Except String Tri :=
  firstPath c (.rowIn negated (q.mine.map Prod.snd)) (q.mine.map Prod.fst) q.correlated
    q.many.text

/-- The predicates are what SQL says they are. -/
structure Follows : Prop where
  isIn : q.answer c (.isIn false q.left q.right) = q.answer c (.compare .eq .any q.left q.right)
  notIn : q.answer c (.isIn true q.left q.right) = q.answer c (.compare .ne .all q.left q.right)
  notIn_isIn : q.answer c (.isIn true q.left q.right) =
    (q.answer c (.isIn false q.left q.right)).map triNot
  any : ∀ op, q.answer c (.compare op .any q.left q.right) =
    .ok (triOr (q.vals.map (compare3 c op q.left q.right q.x)))
  all : ∀ op, q.answer c (.compare op .all q.left q.right) =
    .ok (triAnd (q.vals.map (compare3 c op q.left q.right q.x)))
  rowIn : q.rowAnswer c false = .ok (triOr (q.rows.map (equalRow c q.mine q.rights)))
  rowNotIn : q.rowAnswer c true = .ok (triNot (triOr (q.rows.map (equalRow c q.mine q.rights))))
  exists_rows : q.answer c (.exists false) = .ok (tri (decide (q.one.rows ≠ [])))
  notExists_rows : q.answer c (.exists true) = .ok (tri (decide (q.one.rows = [])))

/-- The value is found by `IN` exactly when it is found by `=`. -/
def FoundAlike : Prop :=
  q.x ≠ executorNull →
    ((∃ v ∈ q.vals, v ≠ executorNull ∧ sameMember c q.correlated q.left q.x v) ↔
      ∃ v ∈ q.vals, v ≠ executorNull ∧ c.compareClassed q.left q.right q.x v = .eq)

/-- `IN` and `=` find the value together, a row is found and is open together, and no header or cell
has the mark of an empty answer. -/
structure Agrees : Prop where
  found : q.FoundAlike c
  rowFound : (∃ r ∈ q.rows, equalRow c q.mine (q.mine.map Prod.snd) r = .true) ↔
    ∃ r ∈ q.rows, equalRow c q.mine q.rights r = .true
  rowOpen : (∀ r ∈ q.rows, equalRow c q.mine q.rights r ≠ .true) →
    ((∃ r ∈ q.rows, equalRow c q.mine (q.mine.map Prod.snd) r = .unknown) ↔
      ∃ r ∈ q.rows, equalRow c q.mine q.rights r = .unknown)
  unmarked : q.one.rows ≠ [] → (∀ h ∈ q.one.columns, ¬ emptyMark <:+: h) ∧
    ∀ r ∈ q.one.rows, ∀ cell ∈ r, ¬ emptyMark <:+: cell

variable {c q}

theorem values_text : values q.one.text = q.vals := by
  rw [values, q.one.extractValues_text, List.map_map]
  rfl

theorem answer_any (op : CmpOp) : q.answer c (.compare op .any q.left q.right) =
    .ok (triOr (q.vals.map (compare3 c op q.left q.right q.x))) := by
  rw [answer, firstPath, scalars, values_text, Except.bind, fromScalars, List.headD_cons,
    compareValues_any]

theorem answer_all (op : CmpOp) : q.answer c (.compare op .all q.left q.right) =
    .ok (triAnd (q.vals.map (compare3 c op q.left q.right q.x))) := by
  rw [answer, firstPath, scalars, values_text, Except.bind, fromScalars, List.headD_cons,
    compareValues_all]

theorem answer_isIn (negated : Bool) : q.answer c (.isIn negated q.left q.right) =
    .ok (membership negated (q.x == executorNull)
      (q.vals.any fun v => v != executorNull && sameMember c q.correlated q.left q.x v)
      (q.vals.contains executorNull) q.vals.isEmpty) := by
  rw [answer, firstPath]
  cases hcorr : q.correlated with
  | true =>
    rw [if_pos rfl, scalars, values_text, Except.bind, fromScalars, List.headD_cons,
      inValues_eq_membership]
  | false =>
    rw [if_neg (by decide), values_text, List.headD_cons, inKeys_eq_membership]

theorem cells_text : cells q.many.text q.mine.length = .ok q.rows.flatten := by
  have hcells := q.many.extractCells_text
  rw [q.columns_length] at hcells
  rw [cells, hcells, rows, ← List.map_flatten]

theorem takeRows_rows : takeRows q.mine.length q.rows.flatten.length q.rows.flatten = q.rows := by
  have hlen : ∀ r ∈ q.rows, r.length = q.mine.length := by
    intro r hr
    obtain ⟨r', hr', rfl⟩ := List.mem_map.mp hr
    rw [List.length_map, q.many.wide r' hr', q.columns_length]
  have hwidth : 0 < q.mine.length := List.length_pos_iff.mpr q.mine_ne_nil
  refine takeRows_flatten hwidth hlen ?_
  have hsum : q.rows.flatten.length = q.rows.length * q.mine.length := by
    rw [List.length_flatten, List.map_congr_left hlen, List.map_const', List.sum_replicate_nat]
  rw [hsum]
  exact Nat.le_mul_of_pos_right _ hwidth

theorem sameRow_eq_equalRow (mine : List (String × ValueClass)) (r : List String) :
    sameRow c mine r .true = equalRow c mine (mine.map Prod.snd) r := by
  have hzip : mine.zip (mine.map Prod.snd) = mine.map fun e => (e, e.2) := by
    simpa using List.zip_map' (f := id) (g := Prod.snd) (l := mine)
  rw [sameRow_eq, equalRow, hzip, List.zipWith_map_left]
  simp [triAnd]

theorem rowAnswer_eq (negated : Bool) : q.rowAnswer c negated =
    .ok (if negated then
        triNot (triOr (q.rows.map (equalRow c q.mine (q.mine.map Prod.snd))))
      else triOr (q.rows.map (equalRow c q.mine (q.mine.map Prod.snd)))) := by
  have hmine : (q.mine.map Prod.fst).zip (q.mine.map Prod.snd) = q.mine := by
    rw [List.zip_map']
    exact List.map_id q.mine
  have hfound : rowIn c q.mine q.rows .false =
      triOr (q.rows.map (equalRow c q.mine (q.mine.map Prod.snd))) := by
    rw [rowIn_eq]
    simp only [sameRow_eq_equalRow]
    simp [triOr]
  rw [rowAnswer, firstPath, scalars, List.length_map, cells_text, Except.bind, fromScalars,
    hmine, List.length_map, takeRows_rows, hfound]

theorem answer_exists (negated : Bool) : q.answer c (.exists negated) =
    .ok (tri (hasRows q.one.text != negated)) :=
  rfl

theorem hasRows_text : hasRows q.one.text ↔
    q.one.rows ≠ [] ∧ (∀ h ∈ q.one.columns, ¬ emptyMark <:+: h) ∧
      ∀ r ∈ q.one.rows, ∀ cell ∈ r, ¬ emptyMark <:+: cell := by
  rw [hasRows, decide_eq_true_iff, q.one.emptyMark_infix_text]
  push Not
  rfl

/-- The three-valued ORs of two lists of one length agree when a true one, and else an open one, is
in both or in neither. -/
theorem triOr_eq_iff (ts us : List Tri) : triOr ts = triOr us ↔
    ((.true ∈ ts ↔ .true ∈ us) ∧ (.true ∉ us → (.unknown ∈ ts ↔ .unknown ∈ us))) := by
  unfold triOr
  split_ifs <;> simp_all

theorem foundAlike_iff (negated hasNull empty : Bool) :
    membership negated (q.x == executorNull)
        (q.vals.any fun v => v != executorNull && sameMember c q.correlated q.left q.x v)
        hasNull empty =
      membership negated (q.x == executorNull) (q.vals.any fun v => v != executorNull &&
          c.compareClassed q.left q.right q.x v == .eq) hasNull empty ↔ q.FoundAlike c := by
  rw [membership_inj, beq_eq_false_iff_ne]
  refine forall_congr' fun _ => ?_
  rw [Bool.eq_iff_iff, List.any_eq_true, List.any_eq_true]
  simp only [Bool.and_eq_true, bne_iff_ne, beq_iff_eq]

theorem isIn_iff : q.answer c (.isIn false q.left q.right) =
    q.answer c (.compare .eq .any q.left q.right) ↔ q.FoundAlike c := by
  rw [answer_isIn, answer_any, triOr_eq_membership, Except.ok.injEq, foundAlike_iff]

theorem notIn_iff : q.answer c (.isIn true q.left q.right) =
    q.answer c (.compare .ne .all q.left q.right) ↔ q.FoundAlike c := by
  rw [answer_isIn, answer_all, triAnd_eq_membership, Except.ok.injEq, foundAlike_iff]

theorem rows_iff : triOr (q.rows.map (equalRow c q.mine (q.mine.map Prod.snd))) =
      triOr (q.rows.map (equalRow c q.mine q.rights)) ↔
    (((∃ r ∈ q.rows, equalRow c q.mine (q.mine.map Prod.snd) r = .true) ↔
      ∃ r ∈ q.rows, equalRow c q.mine q.rights r = .true) ∧
    ((∀ r ∈ q.rows, equalRow c q.mine q.rights r ≠ .true) →
      ((∃ r ∈ q.rows, equalRow c q.mine (q.mine.map Prod.snd) r = .unknown) ↔
        ∃ r ∈ q.rows, equalRow c q.mine q.rights r = .unknown))) := by
  rw [triOr_eq_iff]
  simp only [List.mem_map, not_exists, not_and, ne_eq]

theorem exists_iff : tri (hasRows q.one.text) = tri (decide (q.one.rows ≠ [])) ↔
    (q.one.rows ≠ [] → (∀ h ∈ q.one.columns, ¬ emptyMark <:+: h) ∧
      ∀ r ∈ q.one.rows, ∀ cell ∈ r, ¬ emptyMark <:+: cell) := by
  have htri : ∀ a b : Bool, tri a = tri b ↔ a = b := by decide
  rw [htri, Bool.eq_iff_iff, hasRows_text, decide_eq_true_iff]
  constructor
  · exact fun h hne => (h.mpr hne).2
  · exact fun h => ⟨fun hne => hne.1, fun hne => ⟨hne, h hne⟩⟩

theorem follows_iff : q.Follows c ↔ q.Agrees c := by
  constructor
  · intro h
    have hrow := h.rowIn
    rw [rowAnswer_eq, if_neg (by decide), Except.ok.injEq, rows_iff] at hrow
    have hex := h.exists_rows
    rw [answer_exists, Except.ok.injEq, Bool.bne_false, exists_iff] at hex
    exact ⟨isIn_iff.mp h.isIn, hrow.1, hrow.2, hex⟩
  · intro h
    have hrows := rows_iff.mpr ⟨h.rowFound, h.rowOpen⟩
    have hex := exists_iff.mpr h.unmarked
    refine ⟨isIn_iff.mpr h.found, notIn_iff.mpr h.found, ?_, answer_any, answer_all, ?_, ?_, ?_, ?_⟩
    · rw [answer_isIn, answer_isIn, membership_negated]
      rfl
    · rw [rowAnswer_eq, if_neg (by decide), hrows]
    · rw [rowAnswer_eq, if_pos rfl, hrows]
    · rw [answer_exists, Bool.bne_false, hex]
    · have hneg : ∀ a b : Bool, tri a = tri b → tri (a != true) = tri !b := by decide
      rw [answer_exists, hneg _ _ hex]
      simp

end Question

/-- The comparisons on plain ASCII texts and whole numbers. -/
def plainComparer : Comparer where
  reader := { plainReader with weights :=
    fun text => (text.toList.map Char.toLower).map Char.toNat }
  coll := printableCollation
  showDouble _ := ""
  key_ne_null text h := by
    intro hkey
    have hmem : 'N' ∈ (printableKey text).toList := by
      simp only [printableCollation, if_neg h] at hkey
      rw [hkey]
      decide
    rw [printableKey, String.toList_ofList] at hmem
    obtain ⟨ch, -, hlower⟩ := List.mem_map.mp hmem
    exact toLower_ne_upperN ch hlower
  showDouble_ne_null _ := by decide

/-- The text `01` and an answer that is the number 1. -/
def paddedNumber : Question where
  x := "01"
  left := .text
  right := .number
  one := { columns := [['i', 'd']], rows := [[['1']]], wide := by decide }
  mine := [("01", .text)]
  rights := [.number]
  many := { columns := [['i', 'd']], rows := [[['1']]], wide := by decide }
  correlated := false
  mine_ne_nil := by decide
  rights_length := rfl
  columns_length := rfl

/-- An answer of one row that is the text an empty answer is told by. -/
def markedCell : Question where
  x := "a"
  left := .text
  right := .text
  one := { columns := [['n', 'o', 't', 'e']], rows := [[emptyMark]], wide := by decide }
  mine := [("a", .text)]
  rights := [.text]
  many := { columns := [['n', 'o', 't', 'e']], rows := [[emptyMark]], wide := by decide }
  correlated := false
  mine_ne_nil := by decide
  rights_length := rfl
  columns_length := rfl

/-- Whatever the caches hold in a run, a condition is answered as its first evaluation answers
it; and the first evaluation follows the definitions exactly when the three conditions hold. -/
theorem subquery_predicates_exact (c : Comparer) :
    (∀ (κ ρ : Type) [DecidableEq κ] (program : Program κ ρ) (s : State κ),
      Transition.Reaches (step c program) Transition.anyStep State.start s → ∀ k row,
        (evalSingle c program s.statement s.writes s.caches k row).1 =
          evalFirst c program s.statement s.writes k row) ∧
      ∀ q : Question, q.Follows c ↔ q.Agrees c := by
  refine ⟨fun κ ρ _ program s hs k row => ?_, fun q => Question.follows_iff⟩
  have hvalid := valid_of_reaches (c := c) (Caches.valid_fresh 0 0) hs
  exact (evalSingle_spec hvalid s.statement s.writes k row).1

/-- The text `a`, and an answer that is `A`. -/
def otherCase : Question where
  x := "a"
  left := .text
  right := .text
  one := { columns := [['n']], rows := [[['A']]], wide := by decide }
  mine := [("a", .text), ("1", .number)]
  rights := [.text, .number]
  many := { columns := [['n'], ['i', 'd']], rows := [[['A'], ['1']]], wide := by decide }
  correlated := true
  mine_ne_nil := by decide
  rights_length := rfl
  columns_length := rfl

def existsProgram : Program Unit Unit where
  shape _ _ := .exists false
  correlated _ _ := false
  left _ _ _ := []
  run _ _ _ _ := .ok otherCase.one.text

theorem subquery_predicates_exact_otherCase :
    (evalSingle plainComparer existsProgram 0 0 (.fresh 0 0) () ()).1 =
        evalFirst plainComparer existsProgram 0 0 () () ∧ otherCase.Follows plainComparer :=
  ⟨(subquery_predicates_exact plainComparer).1 Unit Unit existsProgram State.start
      (Transition.Reaches.refl _) () (),
    ((subquery_predicates_exact plainComparer).2 otherCase).mpr
      { found := by
          unfold Question.FoundAlike
          decide
        rowFound := by decide
        rowOpen := by decide
        unmarked := by decide }⟩

/-- A text is not `IN` the numbers it is equal to, and a row that holds the mark does not
exist. -/
theorem subquery_predicates_differ :
    paddedNumber.answer plainComparer (.isIn false .text .number) = .ok .false ∧
      paddedNumber.answer plainComparer (.compare .eq .any .text .number) = .ok .true ∧
      markedCell.answer plainComparer (.exists false) = .ok .false ∧
      ¬ paddedNumber.Follows plainComparer ∧ ¬ markedCell.Follows plainComparer := by
  have hin : paddedNumber.answer plainComparer (.isIn false .text .number) = .ok .false :=
    ExceptFold.eq_ok_of_toOption (by decide)
  have hany : paddedNumber.answer plainComparer (.compare .eq .any .text .number) = .ok .true :=
    ExceptFold.eq_ok_of_toOption (by decide)
  have hexists : markedCell.answer plainComparer (.exists false) = .ok .false :=
    ExceptFold.eq_ok_of_toOption (by decide +kernel)
  refine ⟨hin, hany, hexists, fun h => ?_, fun h => ?_⟩
  · exact absurd ((hin.symm.trans h.isIn).trans hany) (by simp)
  · exact absurd (hexists.symm.trans h.exists_rows) (by simp [markedCell, tri])

end RusqlEngine.Subquery
