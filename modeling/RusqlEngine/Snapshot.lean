import RusqlEngine.Row
import Mathlib.Data.Finset.Max

/-!
# Snapshots and visibility

`isVisibleForRead` decides from the two stamps of a row version and a
`SnapshotCtx` whether a reader sees the version. The stamps are texts; a row is
`Stamped n` when its stamps are absent or are the texts of ids below `n`, which is
what the engine writes. On such rows visibility is the relation `Seen` between the
ids themselves.
-/

namespace RusqlEngine

structure SnapshotCtx where
  selfTxnId : Nat
  cutoff : Nat
  inProgress : Finset Nat
deriving DecidableEq

/-- The lambda `committed_as_of` of both visibility functions. -/
def committedAsOf (ctx : SnapshotCtx) (id : Nat) : Bool :=
  id == 0 || (decide (id < ctx.cutoff) && !decide (id ∈ ctx.inProgress))

def isVisible (row : Row) : Bool :=
  match row.find "_xmax" with
  | none => true
  | some text => text == "0"

def isVisibleForRead (row : Row) (ctx : SnapshotCtx) : Bool :=
  let xmin := parseTxnId row "_xmin"
  if xmin ≠ ctx.selfTxnId ∧ committedAsOf ctx xmin = false then false
  else if isVisible row then true
  else
    let xmax := parseTxnId row "_xmax"
    if xmax = ctx.selfTxnId then false
    else if committedAsOf ctx xmax then false
    else true

/-- `visible_under` of the transaction module, which repeats
`Executor::is_visible_for_read` word for word. -/
def visibleUnder (row : Row) (ctx : SnapshotCtx) : Bool :=
  isVisibleForRead row ctx

def isVacuumable (row : Row) (oldestActiveTxnId : Nat) : Bool :=
  if isVisible row then false
  else
    let xmax := parseTxnId row "_xmax"
    decide (xmax ≠ 0) && decide (xmax < oldestActiveTxnId)

def Row.xmin (row : Row) : Nat :=
  parseTxnId row "_xmin"

/-- The id that ended the version, `0` while nothing has. -/
def Row.xmax (row : Row) : Nat :=
  parseTxnId row "_xmax"

/-- The two stamps of a new version: `row["_xmin"] = id`, `row["_xmax"] = "0"`. -/
def Row.tag (row : Row) (id : Nat) : Row :=
  (row.set "_xmin" (stdToString id)).set "_xmax" "0"

/-- `rows.erase(remove_if ...)` and the revival of `apply_rollback` on one row. -/
def undoRow (id : Nat) (row : Row) : Option Row :=
  if row.find "_xmin" = some (stdToString id) then none
  else if row.find "_xmax" = some (stdToString id) then some (row.set "_xmax" "0")
  else some row

/-- A cell that is absent or holds the text of an id below `n`. -/
def StampCell (n : Nat) (cell : Option String) : Prop :=
  ∀ text, cell = some text → ∃ id, id < n ∧ text = stdToString id

/-- Both stamps of the row were written by the engine with ids below `n`. -/
structure Stamped (n : Nat) (row : Row) : Prop where
  xminCell : StampCell n (row.find "_xmin")
  xmaxCell : StampCell n (row.find "_xmax")

/-- The visibility rule between ids. -/
def Seen (ctx : SnapshotCtx) (xmin xmax : Nat) : Prop :=
  (xmin = ctx.selfTxnId ∨ committedAsOf ctx xmin) ∧
    (xmax = 0 ∨ (xmax ≠ ctx.selfTxnId ∧ committedAsOf ctx xmax = false))

variable {id : Nat}

theorem committedAsOf_eq_false_iff {ctx : SnapshotCtx} :
    committedAsOf ctx id = false ↔ id ≠ 0 ∧ (ctx.cutoff ≤ id ∨ id ∈ ctx.inProgress) := by
  simp only [committedAsOf, Bool.or_eq_false_iff, beq_eq_false_iff_ne, Bool.and_eq_false_iff,
    decide_eq_false_iff_not, Bool.not_eq_false', decide_eq_true_eq, not_lt, ne_eq]

variable {n : Nat}

theorem StampCell.mono {m : Nat} {cell : Option String} (h : StampCell n cell) (hnm : n ≤ m) :
    StampCell m cell := by
  intro text ht
  obtain ⟨id, hid, rfl⟩ := h text ht
  exact ⟨id, lt_of_lt_of_le hid hnm, rfl⟩

variable {row : Row}

theorem Stamped.mono {m : Nat} (h : Stamped n row) (hnm : n ≤ m) : Stamped m row :=
  ⟨h.xminCell.mono hnm, h.xmaxCell.mono hnm⟩

theorem stampCell_stdToString (h : id < n) : StampCell n (some (stdToString id)) := by
  intro text ht
  cases ht
  exact ⟨id, h, rfl⟩

theorem parseTxnId_of_find {col : String} (h : row.find col = some (stdToString id))
    (hid : id ≤ uint64Max) : parseTxnId row col = id := by
  simp [parseTxnId, h, stoull_stdToString hid]

theorem parseTxnId_lt {col : String} (hn : 0 < n) (hmax : n ≤ uint64Max)
    (h : StampCell n (row.find col)) : parseTxnId row col < n := by
  cases hc : row.find col with
  | none => simpa [parseTxnId, hc] using hn
  | some text =>
    obtain ⟨id, hid, rfl⟩ := h text hc
    rw [parseTxnId_of_find hc (by omega)]
    exact hid

theorem isVisible_iff_xmax_eq_zero (hmax : n ≤ uint64Max) (h : Stamped n row) :
    isVisible row ↔ row.xmax = 0 := by
  cases hc : row.find "_xmax" with
  | none => simp [isVisible, Row.xmax, parseTxnId, hc]
  | some text =>
    obtain ⟨id, hid, rfl⟩ := h.xmaxCell text hc
    have hx : row.xmax = id := parseTxnId_of_find hc (by omega)
    simp only [isVisible, hc, beq_iff_eq, hx]
    exact stdToString_eq_zero_iff

theorem isVisibleForRead_iff_seen {ctx : SnapshotCtx} (hmax : n ≤ uint64Max) (h : Stamped n row) :
    isVisibleForRead row ctx ↔ Seen ctx row.xmin row.xmax := by
  have hlive := isVisible_iff_xmax_eq_zero hmax h
  unfold isVisibleForRead Seen
  simp only [← Row.xmin.eq_def, ← Row.xmax.eq_def]
  by_cases hxmin : row.xmin = ctx.selfTxnId ∨ committedAsOf ctx row.xmin = true
  · have hguard : ¬ (row.xmin ≠ ctx.selfTxnId ∧ committedAsOf ctx row.xmin = false) := by
      rcases hxmin with h | h
      · exact fun hg => hg.1 h
      · simp [h]
    rw [if_neg hguard]
    by_cases h0 : row.xmax = 0
    · simp [hlive.mpr h0, hxmin, h0]
    · have hdead : isVisible row = false := by
        simpa [Bool.eq_false_iff, hlive] using h0
      by_cases hself : row.xmax = ctx.selfTxnId
      · simp [hdead, hself, hxmin]
        omega
      · simp [hdead, hself, hxmin, h0]
  · have hguard : row.xmin ≠ ctx.selfTxnId ∧ committedAsOf ctx row.xmin = false := by
      push Not at hxmin
      exact ⟨hxmin.1, by simpa using hxmin.2⟩
    simp [hguard]

theorem isVacuumable_iff {horizon : Nat} (hmax : n ≤ uint64Max) (h : Stamped n row) :
    isVacuumable row horizon ↔ row.xmax ≠ 0 ∧ row.xmax < horizon := by
  have hlive := isVisible_iff_xmax_eq_zero hmax h
  unfold isVacuumable
  simp only [← Row.xmax.eq_def]
  by_cases h0 : row.xmax = 0
  · simp [hlive.mpr h0, h0]
  · have hdead : isVisible row = false := by
      simpa [Bool.eq_false_iff, hlive] using h0
    simp [hdead, h0]

variable (row : Row)

theorem Row.xmin_set_xmax (text : String) : (row.set "_xmax" text).xmin = row.xmin := by
  simp [Row.xmin, parseTxnId]

theorem Row.xmax_revived : (row.set "_xmax" "0").xmax = 0 :=
  parseTxnId_of_find (Row.find_set row "_xmax" (stdToString 0)) (Nat.zero_le _)

theorem Row.xmax_set_xmax (h : id ≤ uint64Max) : (row.set "_xmax" (stdToString id)).xmax = id :=
  parseTxnId_of_find (Row.find_set row "_xmax" _) h

theorem Row.find_tag_xmin (id : Nat) : (row.tag id).find "_xmin" = some (stdToString id) := by
  rw [Row.tag, Row.find_set_of_ne _ _ (by decide), Row.find_set]

theorem Row.find_tag_xmax (id : Nat) : (row.tag id).find "_xmax" = some (stdToString 0) :=
  Row.find_set _ _ _

theorem Row.xmin_tag (h : id ≤ uint64Max) : (row.tag id).xmin = id :=
  parseTxnId_of_find (row.find_tag_xmin id) h

theorem Row.xmax_tag (id : Nat) : (row.tag id).xmax = 0 :=
  parseTxnId_of_find (row.find_tag_xmax id) (Nat.zero_le _)

theorem Stamped.tag (h : id < n) : Stamped n (row.tag id) := by
  refine ⟨?_, ?_⟩
  · rw [row.find_tag_xmin]
    exact stampCell_stdToString h
  · rw [row.find_tag_xmax]
    exact stampCell_stdToString (by omega)

theorem Stamped.set_xmax {row : Row} (h : Stamped n row) (hid : id < n) :
    Stamped n (row.set "_xmax" (stdToString id)) := by
  refine ⟨?_, ?_⟩
  · rw [Row.find_set_of_ne row _ (by decide)]
    exact h.xminCell
  · rw [Row.find_set]
    exact stampCell_stdToString hid

end RusqlEngine
