import RusqlEngine.Library.Chain
import RusqlEngine.Library.Transition

/-!
# Row locks and the search for deadlocks

A transaction takes rows exclusively or shared. One that meets a lock in its way is noted in
`wait_for_` with one holder of it, and sleeps when its caller gave it time to. The cycle walk runs
once, when the transaction asks. A sleeper that wakes tries again; a release takes its locks away,
and every edge that points at it.
-/

namespace RusqlEngine

inductive LockEntry
  | exclusive (holder : ℕ)
  | shared (holders : Finset ℕ)

inductive LockMode
  | exclusive
  | shared
deriving DecidableEq

/-- The holders of a lock that a request in this mode conflicts with. -/
def LockEntry.Blocks : LockEntry → LockMode → ℕ → Prop
  | .exclusive owner, _, holder => owner = holder
  | .shared holders, mode, holder => mode = .exclusive ∧ holder ∈ holders

instance : ∀ (entry : LockEntry) (mode : LockMode) (holder : ℕ),
    Decidable (entry.Blocks mode holder)
  | .exclusive owner, _, holder => inferInstanceAs (Decidable (owner = holder))
  | .shared holders, mode, holder =>
    inferInstanceAs (Decidable (mode = .exclusive ∧ holder ∈ holders))

/-- `LockResult`, or the caller still asleep in its waiting loop. -/
inductive LockAnswer
  | granted
  | conflict (holder : ℕ)
  | deadlock (holder : ℕ)
  | timedOut (holder : ℕ)
  | asleep
deriving DecidableEq

/-- An `unordered_map` from transactions to transactions. -/
abbrev WaitFor := List (ℕ × ℕ)

namespace WaitFor

def find (waitFor : WaitFor) (txn : ℕ) : Option ℕ :=
  (List.find? (·.1 = txn) waitFor).map (·.2)

def erase (waitFor : WaitFor) (txn : ℕ) : WaitFor :=
  waitFor.filter (·.1 ≠ txn)

def assign (waitFor : WaitFor) (txn holder : ℕ) : WaitFor :=
  (txn, holder) :: waitFor.erase txn

/-- What `release` leaves: no edge out of the transaction and none into it. -/
def eraseTouching (waitFor : WaitFor) (txn : ℕ) : WaitFor :=
  waitFor.filter fun edge => ¬ (edge.1 = txn ∨ edge.2 = txn)

theorem find_mem {waitFor : WaitFor} {txn holder : ℕ} (h : waitFor.find txn = some holder) :
    txn ∈ (waitFor.map (·.1)).toFinset := by
  obtain ⟨edge, hfind, -⟩ := Option.map_eq_some_iff.mp h
  rw [List.mem_toFinset, List.mem_map]
  have hkey : edge.1 = txn := by
    simpa using List.find?_some hfind
  exact ⟨edge, List.mem_of_find?_eq_some hfind, hkey⟩

end WaitFor

/-- `LockManager`; `κ` are the keys `row_key` gives the rows. -/
structure LockManager (κ : Type) where
  rowLocks : κ → Option LockEntry
  waitFor : WaitFor
  deadlockHistory : List (ℕ × ℕ)
  waits : ℕ

namespace LockManager

variable {κ : Type} [DecidableEq κ]

def init : LockManager κ where
  rowLocks := fun _ => none
  waitFor := []
  deadlockHistory := []
  waits := 0

def setLock (m : LockManager κ) (key : κ) (entry : LockEntry) : LockManager κ :=
  { m with rowLocks := fun k => if k = key then some entry else m.rowLocks k }

/-- `try_grant_exclusive_locked`: the holder in the way, or none and the lock is taken. The
holders of a shared row are met in the order `order`. -/
def tryGrantExclusive (m : LockManager κ) (key : κ) (txn : ℕ) (order : List ℕ) :
    Option ℕ × LockManager κ :=
  match m.rowLocks key with
  | none => (none, m.setLock key (.exclusive txn))
  | some (.exclusive holder) => if holder = txn then (none, m) else (some holder, m)
  | some (.shared holders) =>
    if holders.card = 1 ∧ txn ∈ holders then (none, m.setLock key (.exclusive txn))
    else (order.find? (· ≠ txn), m)

/-- `try_grant_shared_locked`. -/
def tryGrantShared (m : LockManager κ) (key : κ) (txn : ℕ) : Option ℕ × LockManager κ :=
  match m.rowLocks key with
  | none => (none, m.setLock key (.shared {txn}))
  | some (.exclusive holder) => if holder = txn then (none, m) else (some holder, m)
  | some (.shared holders) => (none, m.setLock key (.shared (insert txn holders)))

def tryGrant (m : LockManager κ) (mode : LockMode) (key : κ) (txn : ℕ) (order : List ℕ) :
    Option ℕ × LockManager κ :=
  match mode with
  | .exclusive => m.tryGrantExclusive key txn order
  | .shared => m.tryGrantShared key txn

/-- `creates_cycle`; the walk cannot meet more transactions than the map has edges. -/
def createsCycle (m : LockManager κ) (source target : ℕ) : Bool :=
  Chain.walk m.waitFor.find source (m.waitFor.length + 1) ∅ target

/-- What `acquire` and `acquire_shared` do until they answer or fall asleep; `timed`: the timeout is
positive. -/
def attempt (m : LockManager κ) (mode : LockMode) (key : κ) (txn : ℕ) (timed : Bool)
    (order : List ℕ) : LockAnswer × LockManager κ :=
  match m.tryGrant mode key txn order with
  | (none, m) => (.granted, m)
  | (some holder, m) =>
    if m.createsCycle txn holder then
      (.deadlock holder, { m with deadlockHistory := m.deadlockHistory ++ [(txn, holder)] })
    else if timed then
      (.asleep, { m with waitFor := m.waitFor.assign txn holder, waits := m.waits + 1 })
    else (.conflict holder, { m with waitFor := m.waitFor.assign txn holder })

/-- `acquire` until it answers or falls asleep. -/
def acquire (m : LockManager κ) (key : κ) (txn : ℕ) (timed : Bool) (order : List ℕ) :
    LockAnswer × LockManager κ :=
  m.attempt .exclusive key txn timed order

/-- `acquire_shared` until it answers or falls asleep. -/
def acquireShared (m : LockManager κ) (key : κ) (txn : ℕ) (timed : Bool) (order : List ℕ) :
    LockAnswer × LockManager κ :=
  m.attempt .shared key txn timed order

/-- One turn of the waiting loop; `expired`: the deadline has passed or KILL asked the statement to
stop. -/
def retry (m : LockManager κ) (mode : LockMode) (key : κ) (txn : ℕ) (expired : Bool)
    (order : List ℕ) : LockAnswer × LockManager κ :=
  match m.tryGrant mode key txn order with
  | (none, m) => (.granted, { m with waitFor := m.waitFor.erase txn })
  | (some holder, m) =>
    if expired then (.timedOut holder, { m with waitFor := m.waitFor.erase txn })
    else (.asleep, { m with waitFor := m.waitFor.assign txn holder })

/-- What `release` keeps of a row's lock. -/
def releaseEntry (txn : ℕ) : LockEntry → Option LockEntry
  | .exclusive holder => if holder = txn then none else some (.exclusive holder)
  | .shared holders =>
    if holders.erase txn = ∅ then none else some (.shared (holders.erase txn))

def release (m : LockManager κ) (txn : ℕ) : LockManager κ :=
  { m with
    rowLocks := fun key => (m.rowLocks key).bind (releaseEntry txn)
    waitFor := m.waitFor.eraseTouching txn }

/-- Another transaction holds the row in a mode that conflicts with the request. -/
def InTheWay (m : LockManager κ) (mode : LockMode) (key : κ) (txn holder : ℕ) : Prop :=
  holder ≠ txn ∧ ∃ entry, m.rowLocks key = some entry ∧ entry.Blocks mode holder

/-- The order names the holders of the row when it is shared. -/
def Enumerates (m : LockManager κ) (key : κ) (order : List ℕ) : Prop :=
  match m.rowLocks key with
  | some (.shared holders) => order.toFinset = holders
  | _ => True

instance (m : LockManager κ) (key : κ) (order : List ℕ) : Decidable (m.Enumerates key order) := by
  unfold Enumerates
  split <;> infer_instance

end LockManager

/-- The locks, and for each transaction that sleeps the row it asked for. -/
structure LockSystem (κ : Type) where
  manager : LockManager κ
  asleep : ℕ → Option (κ × LockMode)

inductive LockEvent (κ : Type)
  | acquire (key : κ) (txn : ℕ) (timed : Bool) (order : List ℕ)
  | acquireShared (key : κ) (txn : ℕ) (timed : Bool) (order : List ℕ)
  | wake (txn : ℕ) (expired : Bool) (order : List ℕ)
  | release (txn : ℕ)

namespace LockSystem

open Relation

variable {κ : Type} [DecidableEq κ]

def init : LockSystem κ where
  manager := .init
  asleep := fun _ => none

/-- The state after a transaction that asked for the row has its answer. -/
def answered (s : LockSystem κ) (mode : LockMode) (key : κ) (txn : ℕ)
    (result : LockAnswer × LockManager κ) : LockSystem κ where
  manager := result.2
  asleep := Function.update s.asleep txn
    (if result.1 = .asleep then some (key, mode) else none)

/-- A sleeper makes no further request; it wakes at any time. -/
def step (s : LockSystem κ) : LockEvent κ → Option (LockSystem κ)
  | .acquire key txn timed order =>
    if s.asleep txn = none ∧ s.manager.Enumerates key order then
      some (s.answered .exclusive key txn (s.manager.acquire key txn timed order))
    else none
  | .acquireShared key txn timed order =>
    if s.asleep txn = none ∧ s.manager.Enumerates key order then
      some (s.answered .shared key txn (s.manager.acquireShared key txn timed order))
    else none
  | .wake txn expired order =>
    match s.asleep txn with
    | none => none
    | some (key, mode) =>
      if s.manager.Enumerates key order then
        some (s.answered mode key txn (s.manager.retry mode key txn expired order))
      else none
  | .release txn => some { s with manager := s.manager.release txn }

def ReallyWaits (s : LockSystem κ) (a b : ℕ) : Prop :=
  ∃ key mode, s.asleep a = some (key, mode) ∧ s.manager.InTheWay mode key a b

/-- What the walk can see of a cycle that a request would close: when a holder in the way waits for
the requester in turn, it is the only one in the way, and each wait between the two is the edge of
its transaction. -/
def Seen (s : LockSystem κ) (mode : LockMode) (key : κ) (txn : ℕ) : Prop :=
  ∀ holder, s.manager.InTheWay mode key txn holder →
    ReflTransGen s.ReallyWaits holder txn →
    (∀ other, s.manager.InTheWay mode key txn other → other = holder) ∧
    ∀ a b, ReflTransGen s.ReallyWaits holder a → s.ReallyWaits a b →
      ReflTransGen s.ReallyWaits b txn → s.manager.waitFor.find a = some b

/-- The walk sees the cycle that a request with time to wait would close. -/
def Visible (s : LockSystem κ) : LockEvent κ → Prop
  | .acquire key txn true _ => s.Seen .exclusive key txn
  | .acquireShared key txn true _ => s.Seen .shared key txn
  | _ => True

end LockSystem

end RusqlEngine
