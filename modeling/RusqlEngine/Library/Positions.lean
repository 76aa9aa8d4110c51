import Mathlib.Data.List.Perm.Subperm
import Mathlib.Data.List.TakeDrop

/-!
# Taking elements out of a vector

Elements are taken out of a vector by position, the last one filling the hole or the rest moving
down, and by a predicate in one pass. The predicate may look at the vector in the middle of the
pass; a pass takes the elements that are wanted exactly if every answer is the wanted one in the
state that the answers before leave.
-/

namespace Positions

variable {α σ : Type*}

/-- The elements at the positions that are not taken. -/
def dropAt : List α → (Nat → Bool) → List α
  | [], _ => []
  | x :: l, taken => if taken 0 then dropAt l fun i => taken (i + 1)
      else x :: dropAt l fun i => taken (i + 1)

theorem dropAt_append (l l' : List α) (taken : Nat → Bool) :
    dropAt (l ++ l') taken = dropAt l taken ++ dropAt l' fun i => taken (l.length + i) := by
  induction l generalizing taken with
  | nil => simp [dropAt]
  | cons x l ih =>
    simp only [List.cons_append, dropAt, ih, List.length_cons]
    have hshift : (fun i => taken (l.length + i + 1)) = fun i => taken (l.length + 1 + i) := by
      funext i
      rw [Nat.add_right_comm]
    rw [hshift]
    split
    · rfl
    · rfl

variable {l : List α}

theorem dropAt_eq_self {taken : Nat → Bool} (h : ∀ i < l.length, taken i = false) :
    dropAt l taken = l := by
  induction l generalizing taken with
  | nil => rfl
  | cons x l ih =>
    have hrest : dropAt l (fun i => taken (i + 1)) = l :=
      ih fun i hi => h (i + 1) (Nat.succ_lt_succ hi)
    simp [dropAt, h 0 (Nat.succ_pos _), hrest]

theorem dropAt_congr {taken taken' : Nat → Bool} (h : ∀ i < l.length, taken i = taken' i) :
    dropAt l taken = dropAt l taken' := by
  induction l generalizing taken taken' with
  | nil => rfl
  | cons x l ih =>
    have hrest := ih fun i hi => h (i + 1) (Nat.succ_lt_succ hi)
    simp [dropAt, h 0 (Nat.succ_pos _), hrest]

theorem dropAt_eq_filter (l : List α) (p : α → Bool) :
    dropAt l (fun i => (l[i]?).any p) = l.filter fun x => !p x := by
  induction l with
  | nil => rfl
  | cons x l ih =>
    have hrest : dropAt l (fun i => ((x :: l)[i + 1]?).any p) = l.filter fun x => !p x := by
      simpa using ih
    rw [dropAt, hrest]
    cases hp : p x with
    | true => simp [hp]
    | false => simp [hp]

theorem filterMap_range_getElem? (l : List α) :
    (List.range l.length).filterMap (fun i => l[i]?) = l := by
  induction l with
  | nil => rfl
  | cons x l ih =>
    rw [List.length_cons, List.range_succ_eq_map, List.filterMap_cons, List.filterMap_map]
    have hrest : (List.range l.length).filterMap ((fun i => (x :: l)[i]?) ∘ Nat.succ) = l := ih
    simp only [List.getElem?_cons_zero, hrest]

/-- Elements taken by position are those that a predicate selects, up to order, exactly if the
positions are those of these elements. -/
theorem filter_perm_filterMap_iff [DecidableEq α] {p : α → Bool} {ps : List Nat} (hnodup : ps.Nodup)
    (hrange : ∀ i ∈ ps, i < l.length) :
    (l.filter p).Perm (ps.filterMap fun i => l[i]?) ↔
      ∀ i a, l[i]? = some a → (p a ↔ i ∈ ps) := by
  have hcount : ∀ (qs : List Nat) (a : α), (qs.filterMap fun i => l[i]?).count a =
      qs.countP fun i => l[i]? == some a := by
    intro qs a
    rw [List.count_filterMap]
  constructor
  · intro hperm i a hi
    have heq := hperm.count_eq a
    rw [hcount] at heq
    constructor
    · intro hp
      by_contra hnot
      -- the position that is left out would be one too many
      have hsub : (i :: ps).Subperm (List.range l.length) :=
        List.Nodup.subperm (List.nodup_cons.mpr ⟨hnot, hnodup⟩) (List.cons_subset.mpr
          ⟨List.mem_range.mpr (List.getElem?_eq_some_iff.mp hi).1,
            fun j hj => List.mem_range.mpr (hrange j hj)⟩)
      have hle := hsub.countP_le fun j => l[j]? == some a
      rw [← hcount (List.range l.length), filterMap_range_getElem?,
        List.countP_cons_of_pos (by simp [hi]), ← heq, List.count_filter hp] at hle
      omega
    · intro hin
      by_contra hp
      have hzero : (l.filter p).count a = 0 :=
        List.count_eq_zero.mpr fun hmem => hp (List.mem_filter.mp hmem).2
      rw [heq, List.countP_eq_zero] at hzero
      exact hzero i hin (by simp [hi])
  · intro h
    have hps : ps.Perm ((List.range l.length).filter fun i => (l[i]?).any p) := by
      refine (List.perm_ext_iff_of_nodup hnodup (List.nodup_range.filter _)).mpr fun i => ?_
      rw [List.mem_filter, List.mem_range]
      constructor
      · intro hi
        have ha := List.getElem?_eq_getElem (hrange i hi)
        exact ⟨hrange i hi, by rw [ha]; exact (h i _ ha).mpr hi⟩
      · rintro ⟨hi, hany⟩
        have ha := List.getElem?_eq_getElem hi
        rw [ha] at hany
        exact (h i _ ha).mp hany
    refine ((hps.filterMap _).trans (List.Perm.of_eq ?_)).symm
    calc ((List.range l.length).filter fun i => (l[i]?).any p).filterMap (fun i => l[i]?)
        = ((List.range l.length).filterMap fun i => l[i]?).filter p := by
          rw [List.filterMap_filter, List.filter_filterMap]
          refine List.filterMap_congr fun i _ => ?_
          cases l[i]? <;> simp [Option.filter]
      _ = l.filter p := by rw [filterMap_range_getElem?]

theorem filter_mapIdx_mark {mark : α → α} {live : α → Bool} (hmark : ∀ x, live (mark x) = false)
    (goes : Nat → α → Bool) (l : List α) :
    (l.mapIdx fun i x => if goes i x then mark x else x).filter live =
      (dropAt l fun i => (l[i]?).any (goes i)).filter live := by
  induction l generalizing goes with
  | nil => rfl
  | cons x l ih =>
    have hrest := ih fun i => goes (i + 1)
    rw [List.mapIdx_cons, dropAt]
    simp only [List.getElem?_cons_zero, Option.any_some, List.getElem?_cons_succ]
    cases hgoes : goes 0 x with
    | true => simp [hmark, hrest]
    | false => simp [List.filter_cons, hrest]

/-- `v[pos] = std::move(v.back()); v.pop_back()`. -/
def swapRemove (l : List α) (pos : Nat) : List α :=
  match l.getLast? with
  | some last => (l.set pos last).dropLast
  | none => []

/-- Taking out the element at a position leaves what is before it as it is, and what is after it
in some order. -/
def TakesOut (f : List α → Nat → List α) : Prop :=
  ∀ (before : List α) (x : α) (after : List α),
    ∃ after', f (before ++ x :: after) before.length = before ++ after' ∧ after'.Perm after

theorem swapRemove_takesOut : TakesOut (swapRemove (α := α)) := by
  intro before x after
  rcases List.eq_nil_or_concat after with rfl | ⟨init, last, rfl⟩
  · exact ⟨[], by simp [swapRemove, List.dropLast_append_of_ne_nil], List.Perm.refl _⟩
  · refine ⟨last :: init, ?_, ?_⟩
    · have hlast : (before ++ x :: (init ++ [last])).getLast? = some last := by
        simp [List.getLast?_append, List.getLast?_cons]
      have hset : (before ++ x :: (init ++ [last])).set before.length last =
          before ++ last :: init ++ [last] := by
        simp
      rw [List.concat_eq_append, swapRemove, hlast]
      dsimp only
      rw [hset, List.dropLast_concat]
    · rw [List.concat_eq_append]
      exact (List.perm_append_singleton last init).symm

theorem eraseIdx_takesOut : TakesOut (List.eraseIdx (α := α)) := by
  intro before x after
  exact ⟨after, by simp [List.eraseIdx_append_of_length_le], List.Perm.refl _⟩

/-- Taking out positions from the highest to the lowest leaves the elements at the other
positions. -/
theorem foldl_takesOut_perm {f : List α → Nat → List α} (hf : TakesOut f) :
    ∀ {positions : List Nat} {l : List α}, positions.Pairwise (· > ·) →
      (∀ pos ∈ positions, pos < l.length) →
      (positions.foldl f l).Perm (dropAt l fun i => decide (i ∈ positions))
  | [], l, _, _ => by
      have hnone : dropAt l (fun i => decide (i ∈ ([] : List Nat))) = l :=
        dropAt_eq_self fun i _ => by simp
      rw [hnone]
      exact List.Perm.refl _
  | pos :: positions, l, hsorted, hbound => by
      obtain ⟨hlt, hbelow⟩ := List.pairwise_cons.mp hsorted
      have hpos := hbound pos List.mem_cons_self
      -- the vector around the position
      obtain ⟨before, x, after, rfl, hlen⟩ : ∃ before x after, l = before ++ x :: after ∧
          before.length = pos :=
        ⟨l.take pos, l[pos], l.drop (pos + 1), by simp, by simp [Nat.le_of_lt hpos]⟩
      subst hlen
      obtain ⟨after', heq, hperm⟩ := hf before x after
      have hrest := foldl_takesOut_perm hf hbelow (l := before ++ after') fun p hp => by
        rw [List.length_append]
        exact Nat.lt_add_right _ (hlt p hp)
      rw [List.foldl_cons, heq]
      refine hrest.trans ?_
      rw [dropAt_append, dropAt_append]
      have hafter : dropAt after' (fun i => decide (before.length + i ∈ positions)) = after' :=
        dropAt_eq_self fun i _ => by
          refine decide_eq_false fun hin => ?_
          have := hlt _ hin
          omega
      have hsame : dropAt before (fun i => decide (i ∈ before.length :: positions)) =
          dropAt before fun i => decide (i ∈ positions) :=
        dropAt_congr fun i hi => by simp [Nat.ne_of_lt hi]
      have hdropped : dropAt (x :: after)
          (fun i => decide (before.length + i ∈ before.length :: positions)) = after := by
        have hmore : dropAt after (fun i => decide (before.length + (i + 1) ∈
            before.length :: positions)) = after :=
          dropAt_eq_self fun i _ => by
            refine decide_eq_false fun hin => ?_
            rcases List.mem_cons.mp hin with hin | hin
            · omega
            · have := hlt _ hin
              omega
        rw [dropAt, if_pos (by simp), hmore]
      rw [hafter, hsame, hdropped]
      exact hperm.append_left _

section

/-- What a pass over a vector decides about each element. The answer may depend on the state
of the pass. -/
def decided (answer : σ → α → List α → Bool) (step : σ → α → Bool → σ) :
    σ → List α → Nat → Bool
  | _, [], _ => false
  | s, x :: rest, 0 => answer s x rest
  | s, x :: rest, i + 1 => decided answer step (step s x (answer s x rest)) rest i

/-- Every answer is the wanted one, in the state that the wanted answers before it leave. -/
def Agrees (answer : σ → α → List α → Bool) (step : σ → α → Bool → σ) :
    σ → List α → (Nat → Bool) → Prop
  | _, [], _ => True
  | s, x :: rest, want => answer s x rest = want 0 ∧
      Agrees answer step (step s x (want 0)) rest fun i => want (i + 1)

/-- The state at the end of a pass. -/
def finish (answer : σ → α → List α → Bool) (step : σ → α → Bool → σ) : σ → List α → σ
  | s, [] => s
  | s, x :: rest => finish answer step (step s x (answer s x rest)) rest

variable {answer : σ → α → List α → Bool} {step : σ → α → Bool → σ}

theorem decided_eq_iff_agrees {s : σ} {want : Nat → Bool} :
    (∀ i < l.length, decided answer step s l i = want i) ↔ Agrees answer step s l want := by
  induction l generalizing s want with
  | nil => simp [Agrees]
  | cons x rest ih =>
    constructor
    · intro h
      have hfirst : answer s x rest = want 0 := h 0 (Nat.succ_pos _)
      refine ⟨hfirst, ih.mp fun i hi => ?_⟩
      rw [← hfirst]
      exact h (i + 1) (Nat.succ_lt_succ hi)
    · rintro ⟨hfirst, hrest⟩ i hi
      cases i with
      | zero => exact hfirst
      | succ i =>
        rw [decided, hfirst]
        exact ih.mpr hrest i (Nat.lt_of_succ_lt_succ hi)

def markStep (mark : α → α) (done : List α) (x : α) (taken : Bool) : List α :=
  done ++ [if taken then mark x else x]

theorem filter_finish_markStep {answer : List α → α → List α → Bool} {mark : α → α}
    {live : α → Bool} (hmark : ∀ x, live (mark x) = false) {done : List α} :
    (finish answer (markStep mark) done l).filter live =
      done.filter live ++ (dropAt l (decided answer (markStep mark) done l)).filter live := by
  induction l generalizing done with
  | nil => simp [finish, dropAt]
  | cons x rest ih =>
    rw [finish, ih, dropAt]
    cases htaken : answer done x rest with
    | true => simp [markStep, decided, htaken, hmark]
    | false =>
      simp only [markStep, decided, htaken, Bool.false_eq_true, if_false,
        List.filter_append, List.append_assoc, List.filter_cons, List.filter_nil]
      split
      · rfl
      · rfl

/-- `std::remove_if`: the elements kept so far, and the places between them and the rest. An element
taken stays in place until a kept one moves over it. -/
def compactStep (moved : α) (s : List α × List α) (x : α) (taken : Bool) : List α × List α :=
  if taken then (s.1, s.2 ++ [x])
  else match s.2 with
    | [] => (s.1 ++ [x], [])
    | _ :: gap => (s.1 ++ [x], gap ++ [moved])

theorem compactStep_fst (moved : α) (s : List α × List α) (x : α) (taken : Bool) :
    (compactStep moved s x taken).1 = if taken then s.1 else s.1 ++ [x] := by
  rw [compactStep]
  split
  · rfl
  · split
    · rfl
    · rfl

theorem finish_compactStep {answer : List α × List α → α → List α → Bool} {moved : α}
    {s : List α × List α} :
    (finish answer (compactStep moved) s l).1 =
      s.1 ++ dropAt l (decided answer (compactStep moved) s l) := by
  induction l generalizing s with
  | nil => simp [finish, dropAt]
  | cons x rest ih =>
    rw [finish, ih, compactStep_fst, dropAt]
    cases htaken : answer s x rest with
    | true | false => simp [decided, htaken]

end

end Positions
