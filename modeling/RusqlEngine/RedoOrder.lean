import RusqlEngine.Redo
import RusqlEngine.Library.ReplayOrder

/-!
# The order in which the redo log is replayed

A row is its identity and its `_xmax`, so the rows of a table are known once the copies of each
identity with each `_xmax` are counted. Batches are appended in an order that may differ from the
order of the commits; the rows that a replay leaves do not show it as long as a version is ended
no more often than it is there.
-/

namespace RusqlEngine

open CountedReplay

theorem eq_of_versionIdentity {row row' : Row} (hident : versionIdentity row = versionIdentity row')
    (hstamp : row.find "_xmax" = row'.find "_xmax") : row = row' := by
  apply Row.ext_find
  intro col
  by_cases hcol : col = "_xmax"
  · rw [hcol, hstamp]
  · rw [← find_versionIdentity hcol, hident, find_versionIdentity hcol]

theorem count_eq_bearing (row : Row) (rows : List Row) :
    rows.count row =
      bearing rowVersions (versionIdentity row) (row.find "_xmax") rows := by
  apply List.countP_congr
  intro other _
  simp only [rowVersions_ident, rowVersions_stamp, beq_iff_eq, Bool.and_eq_true]
  constructor
  · rintro rfl
    exact ⟨rfl, rfl⟩
  · rintro ⟨hident, hstamp⟩
    exact eq_of_versionIdentity hident hstamp

def rowsOf (tables : Tables) (name : String) : Option (Multiset Row) :=
  (tables name).map (↑)

variable {log : List RedoOp}

theorem opsOf_of_unmarked (h : ∀ op ∈ log, op.kind ≠ .tableFlushed) (name : String) :
    opsOf name log = log.filterMap (opFor name) := by
  rw [opsOf, keptOps_eq_self h]

theorem opsOf_perm {log' : List RedoOp} (h : ∀ op ∈ log, op.kind ≠ .tableFlushed)
    (hperm : log.Perm log') (name : String) : (opsOf name log).Perm (opsOf name log') := by
  rw [opsOf_of_unmarked h, opsOf_of_unmarked fun op hop => h op (hperm.mem_iff.mpr hop)]
  exact hperm.filterMap _

theorem ends_opsOf (h : ∀ op ∈ log, op.kind ≠ .tableFlushed)
    (hkills : ∀ op ∈ log, op.kind = .setXmax → op.xmax ≠ "0") (name : String) :
    Ends rowVersions (opsOf name log) := by
  intro row x hmem
  rw [opsOf_of_unmarked h] at hmem
  obtain ⟨op, hop, hfor⟩ := List.mem_filterMap.mp hmem
  rw [opFor] at hfor
  split at hfor
  next =>
    split at hfor
    next => cases hfor
    next hkind =>
      cases hfor
      exact hkills op hop hkind
    next => cases hfor
  next => cases hfor

theorem recoverFromRedo_perm {tables : Tables} {log' : List RedoOp}
    (h : ∀ op ∈ log, op.kind ≠ .tableFlushed)
    (hkills : ∀ op ∈ log, op.kind = .setXmax → op.xmax ≠ "0")
    (halike : ∀ name rows, tables name = some rows → Alike rowVersions rows (opsOf name log))
    (hbound : ∀ name rows, tables name = some rows → Bounded rowVersions rows (opsOf name log))
    (hperm : log.Perm log') (name : String) :
    rowsOf (recoverFromRedo tables log') name = rowsOf (recoverFromRedo tables log) name := by
  rw [rowsOf, rowsOf, recoverFromRedo, recoverFromRedo, Option.map_map, Option.map_map]
  apply Option.map_congr
  intro rows hrows
  apply Multiset.coe_eq_coe.mpr
  apply List.perm_iff_count.mpr
  intro row
  rw [count_eq_bearing, count_eq_bearing]
  exact bearing_replay_perm (ends_opsOf h hkills name) (halike name rows hrows)
    (hbound name rows hrows) (opsOf_perm h hperm name) _ _

theorem recoverFromRedo_twice {tables : Tables} (h : ∀ op ∈ log, op.kind ≠ .tableFlushed)
    (hkills : ∀ op ∈ log, op.kind = .setXmax → op.xmax ≠ "0") :
    recoverFromRedo (recoverFromRedo tables log) log = recoverFromRedo tables log := by
  funext name
  rw [recoverFromRedo, recoverFromRedo, Option.map_map]
  apply Option.map_congr
  intro rows _
  exact replay_replay (ends_opsOf h hkills name) rows

abbrev Unmarked (batches : List (List RedoOp)) : Prop :=
  ∀ op ∈ batches.flatten, op.kind ≠ .tableFlushed

/-- Recovery does not depend on the order of the batches, and done twice it does no more than
once. -/
theorem recoverFromRedo_order {tables : Tables} {batches : List (List RedoOp)}
    (hunmarked : Unmarked batches)
    (hkills : ∀ op ∈ batches.flatten, op.kind = .setXmax → op.xmax ≠ "0") :
    recoverFromRedo (recoverFromRedo tables batches.flatten) batches.flatten =
        recoverFromRedo tables batches.flatten ∧
      ((∀ name rows, tables name = some rows →
          Alike rowVersions rows (opsOf name batches.flatten) ∧
            Bounded rowVersions rows (opsOf name batches.flatten)) →
        ∀ batches' : List (List RedoOp), batches.Perm batches' → ∀ name,
          rowsOf (recoverFromRedo tables batches'.flatten) name =
            rowsOf (recoverFromRedo tables batches.flatten) name) := by
  refine ⟨recoverFromRedo_twice hunmarked hkills, ?_⟩
  intro htables batches' hperm name
  exact recoverFromRedo_perm hunmarked hkills (fun name rows h => (htables name rows h).1)
    (fun name rows h => (htables name rows h).2) hperm.flatten name

def versionSeven : Row := .ofCells [("id", "7"), ("_xmin", "1"), ("_xmax", "0")]

def onlyTable (rows : List Row) : Tables := fun name => if name = "t" then some rows else none

/-- Two copies, one of them in the table already, and ended by two transactions. -/
def twoCopies : List (List RedoOp) :=
  [[⟨.setXmax, "t", versionSeven, "2"⟩],
    [⟨.insertVersion, "t", versionSeven, ""⟩, ⟨.insertVersion, "t", versionSeven, ""⟩],
    [⟨.setXmax, "t", versionSeven, "3"⟩]]

theorem ident_of_twoCopies {op : Op Row String} (h : op ∈ opsOf "t" twoCopies.flatten) :
    op = .insert versionSeven ∨ ∃ x, op = .kill versionSeven x := by
  have hops : opsOf "t" twoCopies.flatten = [.kill versionSeven "2", .insert versionSeven,
      .insert versionSeven, .kill versionSeven "3"] := rfl
  rw [hops] at h
  simp only [List.mem_cons, List.not_mem_nil, or_false] at h
  rcases h with rfl | rfl | rfl | rfl
  · exact .inr ⟨_, rfl⟩
  · exact .inl rfl
  · exact .inl rfl
  · exact .inr ⟨_, rfl⟩

theorem alike_twoCopies : Alike rowVersions [versionSeven] (opsOf "t" twoCopies.flatten) := by
  have hlogged : ∀ row : Row, .insert row ∈ opsOf "t" twoCopies.flatten → row = versionSeven := by
    intro row h
    rcases ident_of_twoCopies h with h | ⟨x, h⟩
    · exact Op.insert.inj h
    · cases h
  have hall : ∀ row : Row, row ∈ [versionSeven] ∨ .insert row ∈ opsOf "t" twoCopies.flatten →
      row = versionSeven := by
    rintro row (h | h)
    · exact List.mem_singleton.mp h
    · exact hlogged row h
  refine ⟨?_, ?_⟩
  · intro a b ha hb _
    rw [hlogged a ha, hlogged b hb]
  · intro a b ha hb _ _ _
    rw [hall a ha, hall b hb]

theorem bounded_twoCopies : Bounded rowVersions [versionSeven] (opsOf "t" twoCopies.flatten) := by
  intro i
  by_cases hi : versionIdentity versionSeven = i
  · subst hi
    decide
  · rw [effective_eq_zero]
    · exact Nat.zero_le _
    · intro row x h
      rcases ident_of_twoCopies h with h | ⟨y, h⟩
      · cases h
      · rw [(Op.kill.inj h).1]
        exact hi

theorem recoverFromRedo_order_twoCopies :
    recoverFromRedo (recoverFromRedo (onlyTable [versionSeven]) twoCopies.flatten)
        twoCopies.flatten =
        recoverFromRedo (onlyTable [versionSeven]) twoCopies.flatten ∧
      rowsOf (recoverFromRedo (onlyTable [versionSeven]) twoCopies.reverse.flatten) "t" =
        rowsOf (recoverFromRedo (onlyTable [versionSeven]) twoCopies.flatten) "t" := by
  have horder := @recoverFromRedo_order (onlyTable [versionSeven]) twoCopies (by decide)
    (by decide)
  refine ⟨horder.1, horder.2 ?_ _ (List.reverse_perm twoCopies).symm "t"⟩
  intro name rows h
  obtain ⟨rfl, hrows⟩ := Option.ite_none_right_eq_some.mp h
  cases hrows
  exact ⟨alike_twoCopies, bounded_twoCopies⟩

def opIdentity : Op Row String → Row
  | .insert row => versionIdentity row
  | .kill row _ => versionIdentity row

/-- The logged ends of an identity are no more than the copies that are there and the copies that
are logged. -/
def KillsWithin (rows : List Row) (ops : List (Op Row String)) : Prop :=
  ∀ i ∈ ops.map opIdentity,
    (ops.countP fun
      | .insert _ => false
      | .kill row _ => versionIdentity row == i) ≤
      copies rowVersions i rows + inserts rowVersions i ops

instance (rows : List Row) (ops : List (Op Row String)) : Decidable (KillsWithin rows ops) := by
  unfold KillsWithin
  infer_instance

/-- The same version before anything has written its `_xmax`. -/
def bareSeven : Row := .ofCells [("id", "7"), ("_xmin", "1")]

/-- One copy that is logged too, and ended by two transactions. -/
def endedTwice : List (List RedoOp) :=
  [[⟨.insertVersion, "t", versionSeven, ""⟩], [⟨.setXmax, "t", versionSeven, "2"⟩],
    [⟨.setXmax, "t", versionSeven, "3"⟩]]

/-- Two copies that are alive in two ways. -/
def writtenInTwoWays : List (List RedoOp) :=
  [[⟨.insertVersion, "t", versionSeven, ""⟩], [⟨.insertVersion, "t", bareSeven, ""⟩],
    [⟨.setXmax, "t", versionSeven, "2"⟩]]

def endedByZero : List (List RedoOp) :=
  [[⟨.setXmax, "t", versionSeven, "0"⟩], [⟨.setXmax, "t", versionSeven, "2"⟩]]

theorem not_recoverFromRedo_order :
    (Unmarked endedTwice ∧ KillsWithin [versionSeven] (opsOf "t" endedTwice.flatten) ∧
      rowsOf (recoverFromRedo (onlyTable [versionSeven]) endedTwice.flatten) "t" ≠
        rowsOf (recoverFromRedo (onlyTable [versionSeven])
          [endedTwice[0], endedTwice[2], endedTwice[1]].flatten) "t") ∧
    (Unmarked writtenInTwoWays ∧ KillsWithin [] (opsOf "t" writtenInTwoWays.flatten) ∧
      rowsOf (recoverFromRedo (onlyTable []) writtenInTwoWays.flatten) "t" ≠
        rowsOf (recoverFromRedo (onlyTable [])
          [writtenInTwoWays[1], writtenInTwoWays[0], writtenInTwoWays[2]].flatten) "t") ∧
    (Unmarked endedByZero ∧ KillsWithin [versionSeven, bareSeven] (opsOf "t" endedByZero.flatten) ∧
      rowsOf (recoverFromRedo (recoverFromRedo (onlyTable [versionSeven, bareSeven])
          endedByZero.flatten) endedByZero.flatten) "t" ≠
        rowsOf (recoverFromRedo (onlyTable [versionSeven, bareSeven]) endedByZero.flatten)
          "t") := by
  decide

end RusqlEngine
