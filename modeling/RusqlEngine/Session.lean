import RusqlEngine.Library.Transition
import RusqlEngine.TxnManager

/-!
# Sessions over one shared database

The step machine of the sessions: both halves of `exec_begin`, the writes of open transactions,
`COMMIT`, `ROLLBACK`, autocommit statements, whose ids are taken before their rows are written, and
`VACUUM`. A step is a section that the engine runs under its locks, in any order of the sessions. No
step reads `vid`, `removed`, `writes` and `committed`, which record what has happened.
-/

namespace RusqlEngine

/-- A row version of a table. -/
structure Version where
  vid : Nat
  table : String
  row : Row
deriving DecidableEq

/-- `entering` is the time between the two halves of `exec_begin`, `auto` a statement
outside a transaction. -/
inductive Phase
  | idle
  | auto
  | entering
  | inTxn
deriving DecidableEq, Repr

/-- `taken` are the ids with which the running autocommit statement has tagged rows, `quiescent`
what a `DELETE` read in `active_txn_ids` at its start. -/
structure Session where
  txn : TxnManager
  phase : Phase
  taken : Finset Nat
  quiescent : Bool

structure Db where
  nextId : Nat
  activeTxnIds : Finset Nat
  store : List Version
  nextVid : Nat
  sessions : Nat → Session
  removed : List Version
  writes : List (Nat × Nat)
  committed : Finset Nat

inductive Step
  | setIsolation (i : Nat) (level : IsolationLevel)
  | beginSnapshot (i : Nat)
  | beginActivate (i : Nat)
  | takeId
  | startAuto (i : Nat)
  | tag (i : Nat)
  | autoAppend (i id : Nat) (table : String) (row : Row)
  | autoEnd (i id vid : Nat)
  | autoErase (i vid : Nat)
  | finishAuto (i : Nat)
  | append (i : Nat) (table key : String) (row : Row)
  | endVersion (i vid : Nat) (key : String)
  | recordRead (i vid : Nat) (pkCol : String)
  | commit (i : Nat)
  | rollback (i : Nat)
  | vacuum (table : String)

namespace Session

def fresh : Session :=
  { txn := TxnManager.fresh, phase := .idle, taken := ∅, quiescent := false }

/-- The ids under which the session may still write. -/
def owned (se : Session) : Finset Nat :=
  match se.phase with
  | .idle => ∅
  | .auto => se.taken
  | .entering => {se.txn.txnId}
  | .inTxn => {se.txn.txnId}

end Session

namespace Db

/-- The database after start-up: the rows of the table files, and a counter above every id in them.
-/
def load (nextId : Nat) (rows : List (String × Row)) : Db :=
  { nextId := nextId, activeTxnIds := ∅, nextVid := rows.length
    store := rows.zipIdx.map fun p => ⟨p.2, p.1.1, p.1.2⟩
    sessions := fun _ => Session.fresh
    removed := [], writes := [], committed := Finset.range nextId }

def setSession (s : Db) (i : Nat) (se : Session) : Db :=
  { s with sessions := Function.update s.sessions i se }

/-- `s.tables.at(table)`. -/
def tableRows (s : Db) (table : String) : List Row :=
  (s.store.filter fun v => v.table = table).map (·.row)

def oldestActiveTxnId (s : Db) : Nat :=
  if h : s.activeTxnIds.Nonempty then s.activeTxnIds.min' h else s.nextId

def currentReadCtx (s : Db) (i : Nat) : SnapshotCtx :=
  let txn := (s.sessions i).txn
  if txn.isolationLevel = .readUncommitted then ⟨txn.currentTxnId, uint64Max, ∅⟩
  else match (if txn.active then txn.frozenCtx else none) with
    | some frozen => frozen
    | none => ⟨txn.currentTxnId, s.nextId, s.activeTxnIds⟩

/-- The context `write_ctx` an `UPDATE` that writes under `id` finds its rows with. -/
def writeCtx (s : Db) (id : Nat) : SnapshotCtx :=
  ⟨id, s.nextId, s.activeTxnIds⟩

/-- A new version, tagged with the id of its writer. -/
def appendVersion (s : Db) (id : Nat) (table : String) (row : Row) : Db :=
  { s with
    store := s.store ++ [⟨s.nextVid, table, row.tag id⟩]
    nextVid := s.nextVid + 1
    writes := (s.nextVid, id) :: s.writes }

def isLive (s : Db) (vid : Nat) : Bool :=
  s.store.any fun v => v.vid == vid && isVisible v.row

/-- `row["_xmax"] = id` on the version `vid`. -/
def endVersion (s : Db) (id vid : Nat) : Db :=
  { s with
    store := s.store.map fun v =>
      if v.vid = vid then { v with row := v.row.set "_xmax" (stdToString id) } else v
    writes := (vid, id) :: s.writes }

def removeWhere (s : Db) (p : Version → Bool) : Db :=
  { s with
    store := s.store.filter fun v => !p v
    removed := s.removed ++ s.store.filter p }

/-- `undoRow` in the tables the transaction has written to. -/
def undoVersion (id : Nat) (dirty : List String) (v : Version) : Option Version :=
  if v.table ∈ dirty then (undoRow id v.row).map fun row => { v with row := row } else some v

/-- The session after its transaction is over. -/
def leaveTxn (s : Db) (i : Nat) : Db :=
  let se := s.sessions i
  { s.setSession i { se with txn := se.txn.finish, phase := .idle } with
    activeTxnIds := s.activeTxnIds.erase se.txn.txnId }

def applyRollback (s : Db) (i : Nat) : Db :=
  let txn := (s.sessions i).txn
  { s.leaveTxn i with store := s.store.filterMap (undoVersion txn.txnId txn.dirtyTables) }

/-- The rows that `exec_vacuum` and `maybe_auto_vacuum` remove from a table. -/
def vacuumed (s : Db) (table : String) (v : Version) : Bool :=
  decide (v.table = table) && isVacuumable v.row s.oldestActiveTxnId

/-- `exec_commit_phase1` and the rest of `execute_commit_grouped`; a failed validation
rolls the transaction back. -/
def execCommit (s : Db) (i : Nat) : Db :=
  let txn := (s.sessions i).txn
  match txn.validateSerializable s.tableRows s.activeTxnIds with
  | .error _ => s.applyRollback i
  | .ok () => { s.leaveTxn i with committed := insert txn.txnId s.committed }

end Db

open Db

def step (s : Db) : Step → Option Db
  | .setIsolation i level =>
    let se := s.sessions i
    some (s.setSession i { se with txn := { se.txn with isolationLevel := level } })
  | .beginSnapshot i =>
    let se := s.sessions i
    if se.phase = .idle ∧ s.nextId < uint64Max then
      match se.txn.beginWithSnapshot s.nextId s.activeTxnIds with
      | .ok (txn, nextId) =>
        some { s.setSession i { se with txn := txn, phase := .entering } with
                nextId := nextId }
      | .error _ => none
    else none
  | .beginActivate i =>
    let se := s.sessions i
    if se.phase = .entering then
      some { s.setSession i { se with phase := .inTxn } with
              activeTxnIds := insert se.txn.txnId s.activeTxnIds }
    else none
  | .takeId => if s.nextId < uint64Max then some { s with nextId := s.nextId + 1 } else none
  | .startAuto i =>
    let se := s.sessions i
    if se.phase = .idle then
      some (s.setSession i
        { se with phase := .auto, taken := ∅, quiescent := decide (s.activeTxnIds = ∅) })
    else none
  | .tag i =>
    let se := s.sessions i
    if se.phase = .auto ∧ s.nextId < uint64Max then
      some { s.setSession i { se with taken := insert s.nextId se.taken } with
              nextId := s.nextId + 1 }
    else none
  | .autoAppend i id table row =>
    if (s.sessions i).phase = .auto ∧ id ∈ (s.sessions i).taken then
      some { s.appendVersion id table row with committed := insert id s.committed }
    else none
  | .autoEnd i id vid =>
    if (s.sessions i).phase = .auto ∧ id ∈ (s.sessions i).taken ∧ s.isLive vid then
      some { s.endVersion id vid with committed := insert id s.committed }
    else none
  | .autoErase i vid =>
    if (s.sessions i).phase = .auto ∧ (s.sessions i).quiescent ∧ s.isLive vid then
      some (s.removeWhere fun v => v.vid == vid)
    else none
  | .finishAuto i =>
    let se := s.sessions i
    if se.phase = .auto then
      some (s.setSession i { se with phase := .idle })
    else none
  | .append i table key row =>
    let se := s.sessions i
    if se.phase = .inTxn then
      some ((s.appendVersion se.txn.txnId table row).setSession i
        { se with txn := se.txn.logInsert table key (row.tag se.txn.txnId) })
    else none
  | .endVersion i vid key =>
    let se := s.sessions i
    if se.phase = .inTxn then
      match s.store.find? fun v => v.vid == vid && isVisible v.row with
      | some v =>
        some ((s.endVersion se.txn.txnId vid).setSession i
          { se with txn := se.txn.logDelete v.table key v.row })
      | none => none
    else none
  | .recordRead i vid pkCol =>
    let se := s.sessions i
    if se.phase = .inTxn ∧ '\x00' ∉ pkCol.toList ∧ pkCol ≠ "_xmax" then
      match s.store.find? fun v => v.vid == vid && isVisibleForRead v.row (s.currentReadCtx i) with
      | some v =>
        if '\x00' ∈ v.table.toList then none
        else match v.row.find pkCol with
          | some key =>
            some (s.setSession i { se with txn := se.txn.recordRead v.table pkCol key })
          | none => none
      | none => none
    else none
  | .commit i => if (s.sessions i).phase = .inTxn then some (s.execCommit i) else none
  | .rollback i => if (s.sessions i).phase = .inTxn then some (s.applyRollback i) else none
  | .vacuum table => some (s.removeWhere (s.vacuumed table))

end RusqlEngine
