import RusqlEngine.Schema
import RusqlEngine.Snapshot
import Mathlib.Data.List.Sort

/-!
# The rows that an index names

`dml_index_positions` takes the entries of an index as candidates only: each is found again
through the position cache of the primary key and looked at. Which rows the statement sees and
which ones its condition accepts are given.
-/

namespace RusqlEngine

/-- One index entry's view of a row version. -/
structure Cand where
  pk : String
  xmin : String
  xmax : String
  viaPkIndex : Bool
deriving DecidableEq

structure DmlIndexHit where
  usable : Bool
  cacheGap : Bool
  positions : List Nat
deriving DecidableEq

/-- What the loop over the candidates reads. -/
structure IndexSearch where
  rows : List Row
  pkColumn : String
  rowPkPos : Option (String → Option Nat)
  visible : Row → Bool
  whereTrue : Row → Bool

namespace IndexSearch

def rowAt (s : IndexSearch) (pos : Nat) (accepts : Row → Bool) : Bool :=
  (s.rows[pos]?).any accepts

/-- The lambda `resolve`: the position of a key in the cache, if the row there has it. -/
def resolve (s : IndexSearch) (pk : String) : Option (Nat × Row) :=
  (s.rowPkPos.bind fun cache => cache pk).bind fun pos =>
    (s.rows[pos]?).bind fun row => if row.find s.pkColumn = some pk then some (pos, row) else none

/-- The loop over the candidates of an index. -/
def checkCands (s : IndexSearch) : List Cand → List String → List Nat → DmlIndexHit
  | [], _, positions => ⟨true, false, positions.insertionSort (· ≤ ·)⟩
  | c :: cands, done, positions =>
    if c.xmax ≠ "0" then
      if c.viaPkIndex = false then s.checkCands cands done positions
      else match s.resolve c.pk with
        | none => ⟨false, true, []⟩
        | some (_, row) =>
          if isVisible row then ⟨false, false, []⟩ else s.checkCands cands done positions
    else if c.pk ∈ done then s.checkCands cands done positions
    else match s.resolve c.pk with
      | none => ⟨false, true, []⟩
      | some (pos, row) =>
        if (row.find "_xmin").getD "0" ≠ c.xmin then ⟨false, false, []⟩
        else if s.visible row = false then ⟨false, false, []⟩
        else if s.whereTrue row = false then s.checkCands cands (c.pk :: done) positions
        else s.checkCands cands (c.pk :: done) (pos :: positions)

def selected (s : IndexSearch) : List Nat :=
  (List.range s.rows.length).filter fun pos =>
    s.rowAt pos fun row => s.visible row && s.whereTrue row

/-- A live index entry whose cached position is `pos`. -/
def Named (s : IndexSearch) (cands : List Cand) (pos : Nat) : Prop :=
  ∃ c ∈ cands, c.xmax = "0" ∧ ∃ row, s.resolve c.pk = some (pos, row)

variable {s : IndexSearch} {pos : Nat}

theorem rowAt_iff {accepts : Row → Bool} :
    s.rowAt pos accepts ↔ ∃ row, s.rows[pos]? = some row ∧ accepts row :=
  Option.any_eq_true _ _

theorem mem_selected :
    pos ∈ s.selected ↔ s.rowAt pos (fun row => s.visible row && s.whereTrue row) := by
  rw [selected, List.mem_filter, List.mem_range]
  refine ⟨fun h => h.2, fun h => ⟨?_, h⟩⟩
  obtain ⟨row, hrow, -⟩ := rowAt_iff.mp h
  exact (List.getElem?_eq_some_iff.mp hrow).1

theorem resolve_eq_some {pk : String} {row : Row} (h : s.resolve pk = some (pos, row)) :
    s.rows[pos]? = some row ∧ row.find s.pkColumn = some pk := by
  obtain ⟨p, -, h⟩ := Option.bind_eq_some_iff.mp h
  obtain ⟨r, hr, h⟩ := Option.bind_eq_some_iff.mp h
  simp only [Option.ite_none_right_eq_some, Option.some.injEq, Prod.mk.injEq] at h
  obtain ⟨hfind, rfl, rfl⟩ := h
  exact ⟨hr, hfind⟩

/-- What the loop has found so far, under the keys that it has looked at. -/
structure Found (s : IndexSearch) (done : List String) (positions : List Nat) : Prop where
  nodup : positions.Nodup
  row : ∀ pos ∈ positions, ∃ row, s.rows[pos]? = some row ∧ s.visible row ∧
    s.whereTrue row ∧ ∃ pk ∈ done, row.find s.pkColumn = some pk

variable {done : List String} {positions : List Nat}

theorem Found.mono (h : Found s done positions) (pk : String) : Found s (pk :: done) positions := by
  refine ⟨h.nodup, fun pos hpos => ?_⟩
  obtain ⟨row, hrow, hvisible, hwhere, pk', hpk', hfind⟩ := h.row pos hpos
  exact ⟨row, hrow, hvisible, hwhere, pk', List.mem_cons_of_mem _ hpk', hfind⟩

theorem Found.cons {pk : String} {row : Row} (h : Found s done positions) (hpk : pk ∉ done)
    (hresolve : s.resolve pk = some (pos, row)) (hvisible : s.visible row)
    (hwhere : s.whereTrue row) : Found s (pk :: done) (pos :: positions) := by
  obtain ⟨hrow, hfind⟩ := resolve_eq_some hresolve
  refine ⟨List.nodup_cons.mpr ⟨fun hin => ?_, h.nodup⟩, fun p hp => ?_⟩
  · obtain ⟨row', hrow', -, -, pk', hpk', hfind'⟩ := h.row pos hin
    obtain rfl := Option.some.inj (hrow.symm.trans hrow')
    exact hpk ((Option.some.inj (hfind.symm.trans hfind')) ▸ hpk')
  · rcases List.mem_cons.mp hp with rfl | hp
    · exact ⟨row, hrow, hvisible, hwhere, pk, List.mem_cons_self, hfind⟩
    · exact (h.mono pk).row p hp

/-- What the loop adds to the positions it has found, for the rest of the candidates. -/
structure Answered (s : IndexSearch) (cands : List Cand) (done : List String)
    (positions answer : List Nat) : Prop where
  found : ∃ done', Found s done' answer
  kept : positions ⊆ answer
  complete : ∀ c ∈ cands, c.xmax = "0" → c.pk ∉ done → ∀ pos row,
    s.resolve c.pk = some (pos, row) → s.whereTrue row → pos ∈ answer
  named : ∀ pos ∈ answer, pos ∈ positions ∨ s.Named cands pos

variable {cands : List Cand}

theorem Answered.skip {c : Cand} {answer : List Nat} (h : Answered s cands done positions answer)
    (hskip : c.xmax = "0" → c.pk ∈ done) : Answered s (c :: cands) done positions answer := by
  refine ⟨h.found, h.kept, fun c' hc' hlive hdone => ?_, fun pos hpos => ?_⟩
  · rcases List.mem_cons.mp hc' with rfl | hc'
    · exact absurd (hskip hlive) hdone
    · exact h.complete c' hc' hlive hdone
  · refine (h.named pos hpos).imp_right fun ⟨c', hc', hnamed⟩ => ?_
    exact ⟨c', List.mem_cons_of_mem _ hc', hnamed⟩

theorem Answered.look {c : Cand} {positions' answer : List Nat} {row : Row}
    (h : Answered s cands (c.pk :: done) positions' answer) (hlive : c.xmax = "0")
    (hresolve : s.resolve c.pk = some (pos, row))
    (hpositions : positions' = if s.whereTrue row then pos :: positions else positions) :
    Answered s (c :: cands) done positions answer := by
  have hkept : positions ⊆ positions' := by
    rw [hpositions]
    split
    · exact List.subset_cons_self _ _
    · exact List.Subset.refl _
  have hthis : ∀ p r, s.resolve c.pk = some (p, r) → s.whereTrue r → p ∈ answer := by
    intro p r hr hwhere
    obtain ⟨rfl, rfl⟩ := Prod.mk.inj (Option.some.inj (hresolve.symm.trans hr))
    rw [hpositions, if_pos hwhere] at h
    exact h.kept List.mem_cons_self
  refine ⟨h.found, List.Subset.trans hkept h.kept, fun c' hc' hlive' hdone => ?_, fun p hp => ?_⟩
  · by_cases hsame : c'.pk = c.pk
    · rw [hsame]
      exact hthis
    · rcases List.mem_cons.mp hc' with rfl | hc'
      · exact absurd rfl hsame
      · refine h.complete c' hc' hlive' fun hin => ?_
        rcases List.mem_cons.mp hin with hin | hin
        · exact hsame hin
        · exact hdone hin
  · rcases h.named p hp with hin | ⟨c', hc', hnamed⟩
    · rw [hpositions] at hin
      split at hin
      · rcases List.mem_cons.mp hin with rfl | hin
        · exact .inr ⟨c, List.mem_cons_self, hlive, row, hresolve⟩
        · exact .inl hin
      · exact .inl hin
    · exact .inr ⟨c', List.mem_cons_of_mem _ hc', hnamed⟩

/-- A usable answer of the loop holds the rows that the live entries name and the condition
accepts. -/
theorem checkCands_usable : ∀ {cands : List Cand} {done : List String}
    {positions : List Nat}, Found s done positions →
    (s.checkCands cands done positions).usable →
    ∃ answer, (s.checkCands cands done positions).positions = answer.insertionSort (· ≤ ·) ∧
      Answered s cands done positions answer
  | [], done, positions, hfound, _ =>
    ⟨positions, rfl, ⟨done, hfound⟩, List.Subset.refl _, fun _ hc => (List.not_mem_nil hc).elim,
      fun _ hpos => .inl hpos⟩
  | c :: cands, done, positions, hfound, husable => by
      rw [checkCands] at husable ⊢
      by_cases hdead : c.xmax ≠ "0"
      · have hskip : c.xmax = "0" → c.pk ∈ done := fun h => absurd h hdead
        rw [if_pos hdead] at husable ⊢
        by_cases hvia : c.viaPkIndex = false
        · rw [if_pos hvia] at husable ⊢
          obtain ⟨answer, heq, h⟩ := checkCands_usable hfound husable
          exact ⟨answer, heq, h.skip hskip⟩
        · rw [if_neg hvia] at husable ⊢
          cases hresolve : s.resolve c.pk with
          | none => simp [hresolve] at husable
          | some found =>
            obtain ⟨pos, row⟩ := found
            simp only [hresolve] at husable ⊢
            by_cases hlive : isVisible row = true
            · simp [hlive] at husable
            · rw [if_neg hlive] at husable ⊢
              obtain ⟨answer, heq, h⟩ := checkCands_usable hfound husable
              exact ⟨answer, heq, h.skip hskip⟩
      · rw [if_neg hdead] at husable ⊢
        have hlive : c.xmax = "0" := not_not.mp hdead
        by_cases hdone : c.pk ∈ done
        · rw [if_pos hdone] at husable ⊢
          obtain ⟨answer, heq, h⟩ := checkCands_usable hfound husable
          exact ⟨answer, heq, h.skip fun _ => hdone⟩
        · rw [if_neg hdone] at husable ⊢
          cases hresolve : s.resolve c.pk with
          | none => simp [hresolve] at husable
          | some found =>
            obtain ⟨pos, row⟩ := found
            simp only [hresolve] at husable ⊢
            by_cases hxmin : (row.find "_xmin").getD "0" ≠ c.xmin
            · rw [if_pos hxmin] at husable
              cases husable
            · rw [if_neg hxmin] at husable ⊢
              by_cases hvisible : s.visible row = false
              · rw [if_pos hvisible] at husable
                cases husable
              · rw [if_neg hvisible] at husable ⊢
                have hvisible : s.visible row := by simpa using hvisible
                by_cases hwhere : s.whereTrue row = false
                · rw [if_pos hwhere] at husable ⊢
                  obtain ⟨answer, heq, h⟩ := checkCands_usable (hfound.mono c.pk) husable
                  exact ⟨answer, heq, h.look hlive hresolve (by simp [hwhere])⟩
                · rw [if_neg hwhere] at husable ⊢
                  have hwhere : s.whereTrue row := by simpa using hwhere
                  obtain ⟨answer, heq, h⟩ := checkCands_usable
                    (hfound.cons hdone hresolve hvisible hwhere) husable
                  exact ⟨answer, heq, h.look hlive hresolve (by simp [hwhere])⟩

theorem checkCands_start_usable (h : (s.checkCands cands [] []).usable) :
    ∃ answer, (s.checkCands cands [] []).positions = answer.insertionSort (· ≤ ·) ∧
      Answered s cands [] [] answer :=
  checkCands_usable ⟨List.nodup_nil, fun _ hpos => by cases hpos⟩ h

theorem checkCands_pairwise (h : (s.checkCands cands [] []).usable) :
    (s.checkCands cands [] []).positions.Pairwise (· < ·) := by
  obtain ⟨answer, heq, hanswered⟩ := checkCands_start_usable h
  obtain ⟨done, hfound⟩ := hanswered.found
  have hnodup := (List.perm_insertionSort (· ≤ ·) answer).nodup_iff.mpr hfound.nodup
  rw [heq]
  exact ((List.pairwise_insertionSort (· ≤ ·) answer).and hnodup).imp fun h =>
    lt_of_le_of_ne h.1 h.2

/-- A usable answer has only rows that are seen and accepted, and these are the ones it
names. -/
theorem mem_checkCands_iff (h : (s.checkCands cands [] []).usable) :
    pos ∈ (s.checkCands cands [] []).positions ↔ pos ∈ s.selected ∧ s.Named cands pos := by
  obtain ⟨answer, heq, hanswered⟩ := checkCands_start_usable h
  obtain ⟨done, hfound⟩ := hanswered.found
  rw [heq, List.mem_insertionSort]
  constructor
  · intro hin
    obtain ⟨row, hrow, hvisible, hwhere, -⟩ := hfound.row pos hin
    refine ⟨mem_selected.mpr (rowAt_iff.mpr ⟨row, hrow, by simp [hvisible, hwhere]⟩), ?_⟩
    exact (hanswered.named pos hin).resolve_left List.not_mem_nil
  · rintro ⟨hselected, c, hc, hlive, row, hresolve⟩
    obtain ⟨row', hrow', haccepts⟩ := rowAt_iff.mp (mem_selected.mp hselected)
    obtain rfl := Option.some.inj ((resolve_eq_some hresolve).1.symm.trans hrow')
    exact hanswered.complete c hc hlive List.not_mem_nil pos row hresolve
      (Bool.and_eq_true_iff.mp haccepts).2

end IndexSearch

end RusqlEngine
