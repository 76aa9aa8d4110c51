import RusqlEngine.LockCycles

/-!
# Gap locks and predicate reads

Beside the row locks the manager keeps, table by table, the ranges that transactions have locked
or read. A range never conflicts with another; an INSERT into a locked range is told the holder by
its caller, and joins the same `wait_for_` as a request for a row.
-/

namespace RusqlEngine

open Relation

structure GapLockRow where
  lo : Option String
  hi : Option String
  loInclusive : Bool
  hiInclusive : Bool
  holder : ℕ
deriving DecidableEq

/-- What a transaction waits for: a row in a mode, or the end of a holder's ranges on a table. -/
inductive LockWait (κ : Type)
  | row (key : κ) (mode : LockMode)
  | gap (table : String) (holder : ℕ)
deriving DecidableEq

/-- `LockManager` with its ranges. A table without ranges has no entry in the source. -/
structure RangeLockManager (κ : Type) where
  rows : LockManager κ
  gapLocks : String → List GapLockRow
  predicateReads : String → List GapLockRow
  predicateViolations : Finset ℕ

namespace RangeLockManager

variable {κ : Type}

def init : RangeLockManager κ where
  rows := .init
  gapLocks := fun _ => []
  predicateReads := fun _ => []
  predicateViolations := ∅

def acquireGap (m : RangeLockManager κ) (table : String) (row : GapLockRow) :
    RangeLockManager κ :=
  { m with gapLocks := Function.update m.gapLocks table (m.gapLocks table ++ [row]) }

def registerPredicateRead (m : RangeLockManager κ) (table : String) (row : GapLockRow) :
    RangeLockManager κ :=
  { m with
    predicateReads := Function.update m.predicateReads table (m.predicateReads table ++ [row]) }

def flagPredicateViolation (m : RangeLockManager κ) (txn : ℕ) : RangeLockManager κ :=
  { m with predicateViolations := insert txn m.predicateViolations }

def takePredicateViolation (m : RangeLockManager κ) (txn : ℕ) : Bool × RangeLockManager κ :=
  (txn ∈ m.predicateViolations, { m with predicateViolations := m.predicateViolations.erase txn })

/-- `register_gap_conflict` until it answers or falls asleep. -/
def registerGapConflict (m : RangeLockManager κ) (txn holder : ℕ) (timed : Bool) :
    LockAnswer × LockManager κ :=
  if m.rows.createsCycle txn holder then
    (.deadlock holder,
      { m.rows with deadlockHistory := m.rows.deadlockHistory ++ [(txn, holder)] })
  else
    (if timed then .asleep else .conflict holder,
      { m.rows with waitFor := m.rows.waitFor.assign txn holder })

def stillHeld (m : RangeLockManager κ) (table : String) (holder : ℕ) : Bool :=
  (m.gapLocks table).any (·.holder = holder)

/-- One turn of its waiting loop. -/
def retryGap (m : RangeLockManager κ) (table : String) (txn holder : ℕ) (expired : Bool) :
    LockAnswer × LockManager κ :=
  if m.stillHeld table holder then
    if expired then (.timedOut holder, { m.rows with waitFor := m.rows.waitFor.erase txn })
    else (.asleep, m.rows)
  else (.granted, { m.rows with waitFor := m.rows.waitFor.erase txn })

/-- What `release` keeps of the ranges of a table. -/
def releaseRanges (txn : ℕ) (rows : List GapLockRow) : List GapLockRow :=
  rows.filter (·.holder ≠ txn)

def release (m : RangeLockManager κ) (txn : ℕ) : RangeLockManager κ where
  rows := m.rows.release txn
  gapLocks := fun table => releaseRanges txn (m.gapLocks table)
  predicateReads := fun table => releaseRanges txn (m.predicateReads table)
  predicateViolations := m.predicateViolations.erase txn

end RangeLockManager

/-- The manager, what each transaction sleeps on, its last refused request whose refusal stands, and
its granted requests; the latter two until the transaction is released. -/
structure RangeLockSystem (κ : Type) where
  manager : RangeLockManager κ
  asleep : ℕ → Option (LockWait κ)
  refused : ℕ → Option (LockWait κ)
  granted : List (ℕ × κ × LockMode)

inductive RangeLockEvent (κ : Type)
  | acquire (key : κ) (txn : ℕ) (timed : Bool) (order : List ℕ)
  | acquireShared (key : κ) (txn : ℕ) (timed : Bool) (order : List ℕ)
  | registerGapConflict (table : String) (txn holder : ℕ) (timed : Bool)
  | wake (txn : ℕ) (expired : Bool) (order : List ℕ)
  | release (txn : ℕ)
  | acquireGap (table : String) (row : GapLockRow)
  | registerPredicateRead (table : String) (row : GapLockRow)
  | flagPredicateViolation (txn : ℕ)
  | takePredicateViolation (txn : ℕ)

namespace RangeLockSystem

variable {κ : Type}

def init : RangeLockSystem κ where
  manager := .init
  asleep := fun _ => none
  refused := fun _ => none
  granted := []

/-- The refusal that stands after an answer to a transaction. -/
def refusalAfter (wait : LockWait κ) (before : Option (LockWait κ)) :
    LockAnswer → Option (LockWait κ)
  | .granted => none
  | .timedOut _ => none
  | .conflict _ => some wait
  | .asleep => some wait
  | .deadlock _ => before

/-- The state after a transaction that waits for this has an answer. -/
def answered (s : RangeLockSystem κ) (wait : LockWait κ) (txn : ℕ)
    (result : LockAnswer × LockManager κ) : RangeLockSystem κ where
  manager := { s.manager with rows := result.2 }
  asleep := Function.update s.asleep txn (if result.1 = .asleep then some wait else none)
  refused := Function.update s.refused txn (refusalAfter wait (s.refused txn) result.1)
  granted :=
    match wait, result.1 with
    | .row key mode, .granted => (txn, key, mode) :: s.granted
    | _, _ => s.granted

variable [DecidableEq κ]

/-- A transaction that asks for a row. -/
def request (s : RangeLockSystem κ) (mode : LockMode) (key : κ) (txn : ℕ) (timed : Bool)
    (order : List ℕ) : Option (RangeLockSystem κ) :=
  if s.asleep txn = none ∧ s.manager.rows.Enumerates key order then
    some (s.answered (.row key mode) txn (s.manager.rows.attempt mode key txn timed order))
  else none

/-- A sleeper makes no further request; it wakes at any time. -/
def step (s : RangeLockSystem κ) : RangeLockEvent κ → Option (RangeLockSystem κ)
  | .acquire key txn timed order => s.request .exclusive key txn timed order
  | .acquireShared key txn timed order => s.request .shared key txn timed order
  | .registerGapConflict table txn holder timed =>
    if s.asleep txn = none then
      some (s.answered (.gap table holder) txn (s.manager.registerGapConflict txn holder timed))
    else none
  | .wake txn expired order =>
    match s.asleep txn with
    | none => none
    | some (.row key mode) =>
      if s.manager.rows.Enumerates key order then
        some (s.answered (.row key mode) txn
          (s.manager.rows.retry mode key txn expired order))
      else none
    | some (.gap table holder) =>
      some (s.answered (.gap table holder) txn
        (s.manager.retryGap table txn holder expired))
  | .release txn =>
    some {
      manager := s.manager.release txn
      asleep := s.asleep
      refused := Function.update s.refused txn none
      granted := s.granted.filter (·.1 ≠ txn) }
  | .acquireGap table row => some { s with manager := s.manager.acquireGap table row }
  | .registerPredicateRead table row =>
    some { s with manager := s.manager.registerPredicateRead table row }
  | .flagPredicateViolation txn =>
    some { s with manager := s.manager.flagPredicateViolation txn }
  | .takePredicateViolation txn =>
    some { s with manager := (s.manager.takePredicateViolation txn).2 }

end RangeLockSystem

end RusqlEngine
