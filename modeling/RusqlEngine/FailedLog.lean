import RusqlEngine.Library.ListEdit
import RusqlEngine.TxnLogs

/-!
# A log call that fails

A `log_*` call pushes its redo operations and their mark, appends to the WAL, appends to the undo
file and pushes the undo entry last. Either append can throw, and what was pushed before it stays.
-/

namespace RusqlEngine

/-- What becomes of the two appends of a `log_*` call. -/
inductive Appends
  | written
  | walThrows
  | undoThrows
deriving DecidableEq

namespace TxnManager

/-- A `log_*` call: the manager it leaves, and whether it returns. -/
def logCall (tm : TxnManager) (change : LoggedChange) (appends : Appends) : TxnManager × Bool :=
  let tm := { tm with redoOps := tm.redoOps ++ change.redoOps }
  let tm :=
    if tm.active then { tm with redoMarks := tm.redoMarks ++ [tm.redoOps.length] } else tm
  if tm.active = false then (tm, true)
  else
    match appends with
    | .walThrows => (tm, false)
    | .undoThrows => (tm, false)
    | .written => ({ tm with undoLog := tm.undoLog ++ [change.undoEntry tm.txnId] }, true)

/-- The three logs are as they were. -/
structure SameLogs (tm tm' : TxnManager) : Prop where
  undoLog : tm'.undoLog = tm.undoLog
  redoOps : tm'.redoOps = tm.redoOps
  redoMarks : tm'.redoMarks = tm.redoMarks

variable {tm tm' : TxnManager} {change : LoggedChange} {appends : Appends}

theorem logCall_written : tm.logCall change .written = (tm.logChange change, true) := by
  rw [TxnLogs.logChange_eq, pushLog]
  cases hactive : tm.active with
  | true => simp only [logCall, hactive, if_true, Bool.true_eq_false, if_false]
  | false => simp only [logCall, hactive, if_true, Bool.false_eq_true, if_false]

theorem logCall_throws (hactive : tm.active) (h : appends ≠ .written) :
    tm.logCall change appends = (tm.logThrows change, false) := by
  cases appends with
  | written => exact absurd rfl h
  | walThrows | undoThrows =>
    simp only [logCall, logThrows, hactive, if_true, Bool.true_eq_false, if_false]

theorem logCall_failed (h : (tm.logCall change appends).2 = false) :
    tm.active ∧ appends ≠ .written := by
  constructor
  · by_contra hactive
    rw [Bool.not_eq_true] at hactive
    simp [logCall, hactive] at h
  · rintro rfl
    rw [logCall_written] at h
    cases h

theorem redoOps_ne_nil (change : LoggedChange) : change.redoOps ≠ [] := by
  cases change <;> exact List.cons_ne_nil _ _

/-- A call that throws leaves the logs changed, whatever they were. -/
theorem logCall_changes_logs (hmarks : tm.redoMarks.length = tm.undoLog.length)
    (h : (tm.logCall change appends).2 = false) :
    ¬ SameLogs tm (tm.logCall change appends).1 ∧
      (tm.logCall change appends).1.redoMarks.length =
        (tm.logCall change appends).1.undoLog.length + 1 := by
  obtain ⟨hactive, happends⟩ := logCall_failed h
  rw [logCall_throws hactive happends]
  constructor
  · intro hsame
    have hops : tm.redoOps ++ change.redoOps = tm.redoOps := hsame.redoOps
    exact redoOps_ne_nil change (List.append_right_eq_self.mp hops)
  · change (tm.redoMarks ++ [_]).length = tm.undoLog.length + 1
    rw [List.length_append, hmarks, List.length_singleton]

/-- The insert of a row with the id, made in a new transaction, fails at the undo file. -/
theorem insert_not_undone :
    ¬ SameLogs TxnLogs.begun (TxnLogs.begun.logCall (TxnLogs.insertOf "1") .undoThrows).1 :=
  fun h => absurd h.redoMarks (by decide)

theorem insert_changes_logs :
    (TxnLogs.begun.logCall (TxnLogs.insertOf "1") .walThrows).2 = false ∧
      ¬ SameLogs TxnLogs.begun (TxnLogs.begun.logCall (TxnLogs.insertOf "1") .walThrows).1 :=
  ⟨rfl, (logCall_changes_logs rfl rfl).1⟩

end TxnManager

end RusqlEngine
