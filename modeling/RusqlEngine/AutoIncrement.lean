import RusqlEngine.Substitution
import RusqlEngine.Library.Transition

/-!
# AUTO_INCREMENT

An INSERT reserves numbers of the counter in batches and gives its rows the next of them. A number
written by hand moves the counter up and ends the reservation; a statement that fails puts numbers
back. The rows of a statement are the steps of the system, so that what a step may do is a
condition on the state before it.
-/

namespace RusqlEngine.AutoIncrement

/-- The largest and the smallest `std::int64_t`. -/
def int64Max : Int :=
  2 ^ 63 - 1

def int64Min : Int :=
  -2 ^ 63

def InInt64 (n : Int) : Prop :=
  int64Min ≤ n ∧ n ≤ int64Max

instance (n : Int) : Decidable (InInt64 n) :=
  inferInstanceAs (Decidable (_ ∧ _))

/-- A sum of `std::int64_t`; where it leaves the type the program has no meaning. -/
def addInt64 (a b : Int) : Option Int :=
  if InInt64 (a + b) then some (a + b) else none

/-- The number at the front of a text, and what follows it. -/
def leadingNumber (text : String) : Option (Int × List Char) :=
  let negative := text.toList.head? = some '-'
  let unsigned := if negative then text.toList.tail else text.toList
  let digits := unsigned.takeWhile Char.isDigit
  let n : Int := Nat.ofDigitChars 10 digits 0
  if digits = [] then none
  else some (if negative then -n else n, unsigned.dropWhile Char.isDigit)

def fromChars (text : String) : Option (Int × List Char) :=
  (leadingNumber text).filter fun p => InInt64 p.1

/-- An AUTO_INCREMENT column: `coerce_column_value`, and the number a text of it is. -/
structure Column where
  coerce : String → Option String
  value : String → ℚ

abbrev Counters :=
  Nat → Option Int

structure CounterTake where
  column : Nat
  before : Int
  after : Int
  reserved : Bool
deriving DecidableEq

/-- `AutoWindow`, while it is active. -/
structure AutoWindow where
  next : Int
  last : Int
deriving DecidableEq

/-- What became of numbers, in order: one was generated, or it is in a row that is stored. -/
inductive Event
  | drawn (column : Nat) (number : Int)
  | stored (column : Nat) (value : ℚ) (generated : Bool)
deriving DecidableEq

def Event.isDrawn : Event → Bool
  | .drawn .. => true
  | .stored .. => false

abbrev Assigned :=
  List (Option String)

/-- What an INSERT keeps while it goes through its rows; the last take comes first. -/
structure Insert where
  size : Nat
  fromSelect : Bool
  window : Option AutoWindow
  nextBatch : Int
  reservedBefore : Bool
  takes : List CounterTake
  burnReservation : Bool
  rowNo : Nat
  prepared : List (List String)
  pendingUpdates : List (Nat × Assigned)
  events : List Event

/-- A table: of each row the cells of its AUTO_INCREMENT columns. `overflowed` says that a sum has
left `std::int64_t`. -/
structure State where
  columns : List Column
  rows : List (List String)
  counters : Counters
  insert : Option Insert
  history : List Event
  overflowed : Bool

/-- How a row ends that has passed the checks. A row that waited for a claim does not give its
number back. -/
inductive Ending
  | failsKeys
  | failsCheck
  | skipped (waited : Bool)
  | updates (row : Nat) (assigned : Assigned) (waited : Bool)
  | updatesEarlier (row : Nat) (assigned : Assigned)
  | stored
deriving DecidableEq

/-- What the checks other than those of the AUTO_INCREMENT columns make of a row. -/
inductive Fate
  | refused
  | failsColumns
  | failsValues
  | passes (ending : Ending)
deriving DecidableEq

/-- `throws`: `row_to_json` throws at a row that is to be stored, before any of them is. -/
inductive Action
  | insert (size : Nat) (fromSelect : Bool)
  | row (cells : List String) (fate : Fate)
  | finish (failing : Option Nat)
  | throws

def generates (text : String) : Bool :=
  text.toList = insertDefault ∨ text = executorNull ∨ text = "0"

/-- `largest`: the largest number the table holds, of those that are numbers as a whole. -/
def largest (rows : List (List String)) (i : Nat) : Int :=
  rows.foldl (fun m cells =>
    match (cells[i]?).bind fromChars with
    | some (v, []) => max m v
    | _ => m) 0

def counterOf (rows : List (List String)) (counters : Counters) (i : Nat) : Int :=
  (counters i).getD (largest rows i)

namespace Insert

/-- `!window.active || window.next > window.end`. -/
def exhausted (ins : Insert) : Bool :=
  ins.window.elim true fun win => win.last < win.next

def reservesAll (ins : Insert) : Bool :=
  !ins.reservedBefore && !ins.fromSelect

def batch (ins : Insert) : Int :=
  if ins.reservesAll then ins.size else ins.nextBatch

/-- A new reservation, and the counter behind it. -/
def reserve (ins : Insert) (i : Nat) (before : Int) : Option (Insert × Int) :=
  (if ins.reservesAll then some ins.nextBatch else addInt64 ins.nextBatch ins.nextBatch).bind
    fun nextBatch => (addInt64 before 1).bind
      fun next => (addInt64 before ins.batch).map
        fun last => ({ ins with
          window := some { next := next, last := last }
          nextBatch := nextBatch
          reservedBefore := true
          takes := { column := i, before := before, after := last, reserved := true } ::
            ins.takes }, last)

/-- `window.next++`. -/
def takeNext (ins : Insert) : Option (Int × Insert) :=
  ins.window.bind fun win => (addInt64 win.next 1).map fun next =>
    (win.next, { ins with window := some { win with next := next } })

/-- `give_back_row_id`. -/
def giveBack (ins : Insert) (taken : Option Int) : Insert :=
  match taken, ins.window with
  | some n, some win =>
    if n ≠ 0 ∧ win.next = n + 1 then { ins with window := some { win with next := n } } else ins
  | _, _ => ins

end Insert

/-- An INSERT with the counters it moves. -/
structure Work where
  counters : Counters
  ins : Insert

/-- The next number of a column. -/
def draw (rows : List (List String)) (w : Work) (i : Nat) : Option (Int × Work) :=
  let before := counterOf rows w.counters i
  if w.ins.exhausted then
    (w.ins.reserve i before).bind fun (ins, after) => ins.takeNext.map fun (n, ins) =>
      (n, { counters := Function.update w.counters i (some after), ins := ins })
  else
    w.ins.takeNext.map fun (n, ins) =>
      (n, { counters := Function.update w.counters i (some before), ins := ins })

/-- The cells of a row from column `i` on, with the numbers that are generated. -/
def numberCells (rows : List (List String)) :
    Nat → List String → Work → Option (List (String × Option Int) × Work)
  | _, [], w => some ([], w)
  | i, text :: texts, w =>
    if generates text then
      (draw rows w i).bind fun (n, w) => (numberCells rows (i + 1) texts w).map
        fun (cells, w) => ((toString n, some n) :: cells, w)
    else
      (numberCells rows (i + 1) texts w).map fun (cells, w) => ((text, none) :: cells, w)

/-- An explicit number moves the counter up to it. -/
def takeWritten (rows : List (List String)) (i : Nat) (text : String) (w : Work) : Work :=
  if text = executorNull then w
  else
    match fromChars text with
    | none => w
    | some (v, _) =>
      let before := counterOf rows w.counters i
      if before < v then {
        counters := Function.update w.counters i (some v)
        ins := { w.ins with
          takes := { column := i, before := before, after := v, reserved := false } ::
            w.ins.takes } }
      else { w with counters := Function.update w.counters i (some before) }

def takeAllWritten (rows : List (List String)) : Nat → List String → Work → Work
  | _, [], w => w
  | i, text :: texts, w => takeAllWritten rows (i + 1) texts (takeWritten rows i text w)

/-- The numbers of a row that is to be stored. -/
def storedEvents (columns : List Column) (numbered : List (String × Option Int))
    (texts : List String) : List Event :=
  ((columns.zip texts).zip numbered).mapIdx fun i ((c, text), (_, n)) =>
    .stored i (c.value text) n.isSome

def assignedEvents (columns : List Column) (assigned : Assigned) : List Event :=
  (columns.zip assigned).mapIdx (fun i (c, text) => text.map fun t =>
    Event.stored i (c.value t) false) |>.reduceOption

def assign (assigned : Assigned) (cells : List String) : List String :=
  cells.mapIdx fun i text => ((assigned[i]?).join).getD text

/-- A statement fails, goes on, or does a sum that leaves `std::int64_t`. -/
inductive Outcome
  | overflows
  | fails (w : Work)
  | goesOn (w : Work)

/-- The row behind the checks of its columns. -/
def endRow (columns : List Column) (numbered : List (String × Option Int)) (texts : List String)
    (w : Work) : Ending → Outcome
  | .failsKeys => .fails w
  | .failsCheck => .fails { w with
      ins := { w.ins with burnReservation := w.ins.burnReservation && w.ins.rowNo != 1 } }
  | .skipped waited => .goesOn { w with
      ins := if waited then w.ins else w.ins.giveBack (numbered.filterMap Prod.snd).getLast? }
  | .updates row assigned waited =>
    let ins := if waited then w.ins else w.ins.giveBack (numbered.filterMap Prod.snd).getLast?
    .goesOn { w with
      ins := { ins with pendingUpdates := ins.pendingUpdates ++ [(row, assigned)] } }
  | .updatesEarlier row assigned =>
    let ins := w.ins.giveBack (numbered.filterMap Prod.snd).getLast?
    .goesOn { w with ins := { ins with
      prepared := ins.prepared.modify row (assign assigned)
      events := ins.events ++ assignedEvents columns assigned } }
  | .stored => .goesOn { w with ins := { w.ins with
      prepared := w.ins.prepared ++ [texts]
      events := w.ins.events ++ storedEvents columns numbered texts } }

/-- The row behind the coercion of its values. -/
def coercedRow (columns : List Column) (rows : List (List String))
    (numbered : List (String × Option Int)) (texts : List String) (w : Work) (fate : Fate) :
    Outcome :=
  let explicit := numbered.any fun (_, n) => n.isNone
  let w := if explicit then { w with ins := { w.ins with window := none } } else w
  let w := takeAllWritten rows 0 texts w
  match fate with
  | .passes ending =>
    endRow columns numbered texts { w with ins := { w.ins with burnReservation := true } } ending
  | _ => .fails w

/-- The row behind the numbers that are generated for it. -/
def numberedRow (columns : List Column) (rows : List (List String))
    (numbered : List (String × Option Int)) (w : Work) (fate : Fate) : Outcome :=
  if fate = .failsColumns then .fails w
  else
    let w := { w with ins := { w.ins with rowNo := w.ins.rowNo + 1 } }
    match (columns.zip numbered).mapM fun (c, text, _) => c.coerce text with
    | none => .fails w
    | some texts => coercedRow columns rows numbered texts w fate

/-- A row of the loop of `exec_insert_inner`. -/
def insertRow (columns : List Column) (rows : List (List String)) (w : Work)
    (cells : List String) (fate : Fate) : Outcome :=
  if fate = .refused then .fails w
  else
    match numberCells rows 0 cells w with
    | none => .overflows
    | some (numbered, w) =>
      let drawn := numbered.mapIdx (fun i (_, n) => n.map (Event.drawn i)) |>.reduceOption
      numberedRow columns rows numbered
        { w with ins := { w.ins with events := w.ins.events ++ drawn } } fate

/-- `~CounterGuard`. -/
def undo (burn : Bool) : List CounterTake → Counters → Counters
  | [], counters => counters
  | take :: takes, counters => undo burn takes
      (if take.reserved && burn then counters
      else if counters take.column = some take.after then
        Function.update counters take.column (some take.before)
      else counters)

/-- The statement ends with an error and no row of it is stored. -/
def failInsert (s : State) (w : Work) : State :=
  { s with
    counters := undo w.ins.burnReservation w.ins.takes w.counters
    insert := none
    history := s.history ++ w.ins.events.filter Event.isDrawn }

/-- The rows are stored, then the updates are made up to one that fails. -/
def finishInsert (s : State) (ins : Insert) (failing : Option Nat) : State :=
  let updates := failing.elim ins.pendingUpdates ins.pendingUpdates.take
  { s with
    rows := updates.foldl (fun rows (row, assigned) => rows.modify row (assign assigned))
      (s.rows ++ ins.prepared)
    counters := if failing.isSome then undo ins.burnReservation ins.takes s.counters
      else s.counters
    insert := none
    history := s.history ++ ins.events ++
      updates.flatMap fun (_, assigned) => assignedEvents s.columns assigned }

/-- What a statement begins with. -/
def beginInsert (size : Nat) (fromSelect : Bool) : Insert where
  size := size
  fromSelect := fromSelect
  window := none
  nextBatch := 1
  reservedBefore := false
  takes := []
  burnReservation := false
  rowNo := 0
  prepared := []
  pendingUpdates := []
  events := []

/-- A step of a statement; nothing is said of what follows a sum that left its type. -/
def step (s : State) (a : Action) : Option State :=
  if s.overflowed then none
  else
    match a, s.insert with
    | .insert size fromSelect, none => some { s with insert := some (beginInsert size fromSelect) }
    | .row cells fate, some ins =>
      if ins.rowNo < ins.size ∧ cells.length = s.columns.length then
        match insertRow s.columns s.rows { counters := s.counters, ins := ins } cells fate with
        | .overflows => some { s with overflowed := true }
        | .fails w => some (failInsert s w)
        | .goesOn w => some { s with counters := w.counters, insert := some w.ins }
      else none
    | .finish failing, some ins =>
      if ins.rowNo = ins.size ∧ ∀ k ∈ failing, k < ins.pendingUpdates.length then
        some (finishInsert s ins failing)
      else none
    | .throws, some ins =>
      if ins.rowNo = ins.size then some (failInsert s { counters := s.counters, ins := ins })
      else none
    | _, _ => none

/-- `CREATE TABLE`, with `AUTO_INCREMENT = ` or without. -/
def created (columns : List Column) (counters : Counters) : State where
  columns := columns
  rows := []
  counters := counters
  insert := none
  history := []
  overflowed := false

end RusqlEngine.AutoIncrement
