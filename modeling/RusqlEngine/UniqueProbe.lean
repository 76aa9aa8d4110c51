import Mathlib.Data.Multiset.Filter

/-!
# The cache of UNIQUE values

The cache of a table counts the live rows that hold each key. It is stamped with how many times the
three locks of the table have been taken exclusively and is current while the stamp fits; inside a
statement's own exclusive section the sum is one ahead. Sessions lock, look keys up, change rows and
report what they change in any order.
-/

namespace RusqlEngine.UniqueProbe

/-- The structural lock, the lock of the table and its data lock, in the order they are taken. -/
inductive Lock
  | structural
  | table
  | data
deriving DecidableEq

/-- `FairSharedMutex`; a session waits until it can take it. -/
structure FairSharedMutex (ι : Type) where
  instanceId : ℕ
  exclusiveCount : ℕ
  writer : Option ι
  readers : List ι

/-- `locks_id`, `data_id` and `sum`. -/
structure Stamp where
  locksId : ℕ
  dataId : ℕ
  sum : ℕ
deriving DecidableEq

/-- What `Lookup` and `fk_children_absent` have seen: the stamp and the INSERTs so far. -/
structure Seen where
  stamp : Stamp
  insertTails : ℕ

/-- `UniqueProbe`: `σ` are the specs of keys and `κ` the keys. A key without an entry counts no
row. -/
structure Probe (σ κ : Type) where
  specs : List σ
  counts : σ → κ → ℕ
  built : Bool
  stamp : Stamp
  insertTails : ℕ
  seen : Option Seen
  streak : ℕ
  childStreak : ℕ

/-- `UniqueProbes`, with the key of a row under a spec. -/
structure Config (σ κ ρ : Type) where
  keyOf : σ → ρ → Option κ
  enabled : Bool
  streakNeeded : ℕ

inductive ProbeUse
  | lookup
  | noBuild
  | insideExclusive
deriving DecidableEq

/-- A call of `unique_probe_apply` or `unique_probe_inserted`. -/
inductive Report (ρ : Type)
  | apply (removed added : List ρ)
  | inserted (rows : List ρ)

def Report.removed {ρ : Type} : Report ρ → List ρ
  | .apply removed _ => removed
  | .inserted _ => []

def Report.added {ρ : Type} : Report ρ → List ρ
  | .apply _ added => added
  | .inserted rows => rows

/-- A table with its locks, its live rows and its cache. `unreported`: live rows have changed
without a report since a lock was last taken exclusively. -/
structure State (ι σ κ ρ : Type) where
  locks : Lock → FairSharedMutex ι
  nextId : ℕ
  specs : List σ
  rows : Multiset ρ
  probe : Option (Probe σ κ)
  unreported : Bool

inductive Action (ι σ κ ρ : Type)
  | acquire (session : ι) (lock : Lock) (exclusive : Bool)
  | release (session : ι) (lock : Lock)
  | provesAbsent (session : ι) (spec : σ) (key : Option κ) (use : ProbeUse)
  | fkChildrenAbsent (session : ι) (spec : σ) (key : Option κ) (versions : ℕ)
  | write (session : ι) (rows : Multiset ρ) (reports : List (Report ρ))
  | commit (session : ι)
  | replaceLocks (session : ι)
  | changeKeys (session : ι) (specs : List σ)

section

variable {ι σ κ ρ : Type} [DecidableEq ι] [DecidableEq σ] [DecidableEq κ] [DecidableEq ρ]
variable (c : Config σ κ ρ) (s : State ι σ κ ρ)

/-- `unique_probe_stamp`. -/
def State.stamp : Stamp where
  locksId := (s.locks .table).instanceId
  dataId := (s.locks .data).instanceId
  sum := (s.locks .structural).exclusiveCount + (s.locks .table).exclusiveCount +
    (s.locks .data).exclusiveCount

/-- `UniqueProbe{}` with the specs of the schema. -/
def newProbe (specs : List σ) : Probe σ κ where
  specs := specs
  counts := fun _ _ => 0
  built := false
  stamp := { locksId := 0, dataId := 0, sum := 0 }
  insertTails := 0
  seen := none
  streak := 0
  childStreak := 0

def countRows (rows : Multiset ρ) (spec : σ) (key : κ) : ℕ :=
  rows.countP fun row => c.keyOf spec row = some key

/-- `probe_for`: the entry, with what it puts into the map. -/
def probeFor (create : Bool) : Option (Probe σ κ) :=
  match s.probe with
  | some p =>
    if p.built then some p
    else if s.specs = [] then none
    else if p.specs = s.specs then some p
    else some (newProbe s.specs)
  | none => if s.specs = [] ∨ create = false then none else some (newProbe s.specs)

/-- The ids fit, and the sum does or is one ahead. -/
def Stamp.Fits (stamp now : Stamp) (oneAhead : Bool) : Prop :=
  stamp.locksId = now.locksId ∧ stamp.dataId = now.dataId ∧
    (stamp.sum = now.sum ∨ oneAhead ∧ stamp.sum + 1 = now.sum)

instance (stamp now : Stamp) (oneAhead : Bool) : Decidable (stamp.Fits now oneAhead) :=
  inferInstanceAs (Decidable (_ ∧ _ ∧ _))

def Probe.absent (p : Probe σ κ) (spec : σ) (key : Option κ) : Bool :=
  key.all fun k => p.counts spec k = 0

def Probe.build (p : Probe σ κ) : Probe σ κ :=
  { p with
    counts := countRows c s.rows
    built := true
    stamp := s.stamp
    streak := 0 }

/-- Only INSERTs since the last look. -/
def Probe.onlyInserts (p : Probe σ κ) : Bool :=
  p.seen.elim false fun seen =>
    seen.stamp.locksId = s.stamp.locksId ∧ seen.stamp.dataId = s.stamp.dataId ∧
      s.stamp.sum + seen.insertTails = p.insertTails + seen.stamp.sum

/-- What is noted of a look-up that finds no current cache. -/
def Probe.look (p : Probe σ κ) : Probe σ κ :=
  { p with
    streak := if p.onlyInserts s then p.streak + 1 else 0
    seen := some { stamp := s.stamp, insertTails := p.insertTails } }

/-- `unique_probe_proves_absent`, with the entry behind it. -/
def provesAbsent (spec : σ) (key : Option κ) (use : ProbeUse) : Bool × Option (Probe σ κ) :=
  if c.enabled = false then (false, s.probe)
  else
    match probeFor s (use = .lookup) with
    | none => (false, s.probe)
    | some p =>
      if use ≠ .lookup ∧ p.built = false then (false, some p)
      else if spec ∉ p.specs then (false, some p)
      else if p.built ∧ p.stamp.Fits s.stamp (use = .insideExclusive) then
        (p.absent spec key, some p)
      else if use ≠ .lookup then (false, some p)
      else
        let p := p.look s
        if p.streak < c.streakNeeded then (false, some p)
        else
          let p := if p.specs = s.specs then p
            else { newProbe s.specs with insertTails := p.insertTails }
          if spec ∉ p.specs then (false, some p)
          else ((p.build c s).absent spec key, some (p.build c s))

/-- `fk_children_absent`; `versions` is the number of row versions of the child table. -/
def fkChildrenAbsent (spec : σ) (key : Option κ) (versions : ℕ) : Bool × Option (Probe σ κ) :=
  if key = none then (true, s.probe)
  else if c.enabled = false then (false, s.probe)
  else
    match probeFor s true with
    | none => (false, s.probe)
    | some p =>
      if spec ∉ p.specs then (false, some p)
      else if p.built ∧ p.stamp.Fits s.stamp true then (p.absent spec key, some p)
      else if versions < 1024 then (false, some p)
      else
        let p := { p with childStreak := p.childStreak + 1 }
        if p.childStreak < 2 then (false, some p)
        else
          let p := { p.build c s with streak := p.streak, childStreak := 0 }
          (p.absent spec key, some p)

/-- A row leaves the counts. -/
def takeOut (counts : σ → κ → ℕ) (row : ρ) : σ → κ → ℕ := fun spec key =>
  if c.keyOf spec row = some key then counts spec key - 1 else counts spec key

/-- A row joins the counts. -/
def putIn (counts : σ → κ → ℕ) (row : ρ) : σ → κ → ℕ := fun spec key =>
  if c.keyOf spec row = some key then counts spec key + 1 else counts spec key

/-- `unique_probe_apply`. -/
def probeApply (removed added : List ρ) : Option (Probe σ κ) :=
  if c.enabled = false then s.probe
  else
    match probeFor s false with
    | none => s.probe
    | some p =>
      if p.built = false then some p
      else if p.stamp.Fits s.stamp true then
        some { p with
          counts := added.foldl (putIn c) (removed.foldl (takeOut c) p.counts)
          stamp := { p.stamp with sum := s.stamp.sum } }
      else some { p with built := false, counts := fun _ _ => 0 }

/-- A report; `unique_probe_inserted` counts the statement first. -/
def report (r : Report ρ) : Option (Probe σ κ) :=
  match r with
  | .apply removed added => probeApply c s removed added
  | .inserted rows =>
    if c.enabled = false then s.probe
    else
      let probe := match probeFor s true with
        | none => s.probe
        | some p => some { p with insertTails := p.insertTails + 1 }
      probeApply c { s with probe := probe } [] rows

def reportAll : State ι σ κ ρ → List (Report ρ) → Option (Probe σ κ)
  | s, [] => s.probe
  | s, r :: rs => reportAll { s with probe := report c s r } rs

/-- `unique_probe_commit`. -/
def probeCommit : Option (Probe σ κ) :=
  if c.enabled = false then s.probe
  else
    s.probe.map fun p =>
      if p.built = false then p
      else if p.stamp.locksId = s.stamp.locksId ∧ p.stamp.dataId = s.stamp.dataId ∧
          p.stamp.sum + 1 = s.stamp.sum then
        { p with stamp := { p.stamp with sum := s.stamp.sum } }
      else { p with built := false, counts := fun _ _ => 0 }

def FairSharedMutex.HeldBy (m : FairSharedMutex ι) (x : ι) : Prop :=
  m.writer = some x ∨ x ∈ m.readers

instance (m : FairSharedMutex ι) (x : ι) : Decidable (m.HeldBy x) :=
  inferInstanceAs (Decidable (_ ∨ _))

def Lock.above : Lock → Option Lock
  | .structural => none
  | .table => some .structural
  | .data => some .table

def Lock.below : Lock → Option Lock
  | .structural => some .table
  | .table => some .data
  | .data => none

/-- `lock` and `lock_shared`. -/
def FairSharedMutex.acquire (m : FairSharedMutex ι) (x : ι) (exclusive : Bool) :
    Option (FairSharedMutex ι) :=
  if m.HeldBy x then none
  else if exclusive then
    if m.writer = none ∧ m.readers = [] then
      some { m with writer := some x, exclusiveCount := m.exclusiveCount + 1 }
    else none
  else if m.writer = none then some { m with readers := x :: m.readers }
  else none

/-- `unlock` and `unlock_shared`. -/
def FairSharedMutex.release (m : FairSharedMutex ι) (x : ι) : Option (FairSharedMutex ι) :=
  if m.writer = some x then some { m with writer := none }
  else if x ∈ m.readers then some { m with readers := m.readers.erase x }
  else none

def newMutex (id : ℕ) : FairSharedMutex ι where
  instanceId := id
  exclusiveCount := 0
  writer := none
  readers := []

def State.Writes (x : ι) : Prop :=
  (s.locks .structural).writer = some x ∨ (s.locks .table).writer = some x ∨
    (s.locks .data).writer = some x

instance (x : ι) : Decidable (s.Writes x) :=
  inferInstanceAs (Decidable (_ ∨ _ ∨ _))

/-- What a look-up answers. -/
def answer : Action ι σ κ ρ → Bool
  | .provesAbsent _ spec key use => (provesAbsent c s spec key use).1
  | .fkChildrenAbsent _ spec key versions => (fkChildrenAbsent c s spec key versions).1
  | _ => false

/-- A step of a session that holds the locks it needs. -/
def step : Action ι σ κ ρ → Option (State ι σ κ ρ)
  | .acquire x l exclusive =>
    if ∀ above ∈ l.above, (s.locks above).HeldBy x then
      ((s.locks l).acquire x exclusive).map fun m => { s with
        locks := Function.update s.locks l m
        unreported := s.unreported && !exclusive }
    else none
  | .release x l =>
    if ∀ below ∈ l.below, ¬ (s.locks below).HeldBy x then
      ((s.locks l).release x).map fun m => { s with locks := Function.update s.locks l m }
    else none
  | .provesAbsent x spec key use =>
    if (s.locks .data).HeldBy x then
      some { s with probe := (provesAbsent c s spec key use).2 }
    else none
  | .fkChildrenAbsent x spec key versions =>
    if (s.locks .data).HeldBy x then
      some { s with probe := (fkChildrenAbsent c s spec key versions).2 }
    else none
  | .write x rows reports =>
    if s.Writes x then
      some { s with
        rows := rows
        probe := reportAll c s reports
        unreported := s.unreported || (reports.isEmpty && rows != s.rows) }
    else none
  | .commit x =>
    if (s.locks .table).writer = some x then some { s with probe := probeCommit c s } else none
  | .replaceLocks x =>
    if (s.locks .structural).writer = some x ∧ s.rows = 0 then
      some { s with
        locks := Function.update (Function.update s.locks .table (newMutex s.nextId)) .data
          (newMutex (s.nextId + 1))
        nextId := s.nextId + 2 }
    else none
  | .changeKeys x specs =>
    if (s.locks .structural).writer = some x then some { s with specs := specs } else none

end

end RusqlEngine.UniqueProbe
