import RusqlEngine.Snapshot

/-!
# The transaction manager of a session

`TxnManager` is the part of `TransactionManager` that lives in memory; the two log
files it appends to are the lists of `LogFiles`. Row images are kept as rows, not
as their JSON texts. The ids come from the counter of `TxnIoShared`, which the
callers pass in as the next id to hand out.
-/

namespace RusqlEngine

inductive IsolationLevel
  | readUncommitted
  | readCommitted
  | repeatableRead
  | serializable
deriving DecidableEq, Repr

inductive UndoOp
  | insert
  | update
  | delete
deriving DecidableEq, Repr

structure UndoEntry where
  txnId : Nat
  operation : UndoOp
  table : String
  key : String
  oldData : Option Row
  newKey : Option String
deriving DecidableEq

inductive WalOp
  | insert
  | update
  | delete
  | commit
  | rollback
  | checkpoint
deriving DecidableEq, Repr

/-- `data` is the image of an insert or update, absent in the other records. -/
structure WalRecord where
  op : WalOp
  txnId : Nat
  tableName : String
  key : String
  data : Option Row
deriving DecidableEq

inductive RedoKind
  | insertVersion
  | setXmax
  | tableFlushed
deriving DecidableEq, Repr

structure RedoOp where
  kind : RedoKind
  table : String
  data : Row
  xmax : String
deriving DecidableEq

/-- The records of the WAL file and of the undo log file. -/
structure LogFiles where
  wal : List WalRecord
  undo : List UndoEntry
deriving DecidableEq

structure TxnManager where
  active : Bool
  txnId : Nat
  undoLog : List UndoEntry
  isolationLevel : IsolationLevel
  frozenCtx : Option SnapshotCtx
  readSet : List String
  savepoints : List (String × Nat)
  redoOps : List RedoOp
  redoMarks : List Nat
  redoIncomplete : Bool
deriving DecidableEq

namespace TxnManager

/-- A manager as its constructor leaves it. -/
def fresh : TxnManager :=
  { active := false, txnId := 0, undoLog := [], isolationLevel := .readCommitted,
    frozenCtx := none, readSet := [], savepoints := [], redoOps := [], redoMarks := [],
    redoIncomplete := false }

def currentTxnId (tm : TxnManager) : Nat :=
  if tm.active then tm.txnId else 0

/-- `begin_with_snapshot`; `nextId` is the counter, and the new counter is returned
with the manager. -/
def beginWithSnapshot (tm : TxnManager) (nextId : Nat) (activeTxnIds : Finset Nat) :
    Except String (TxnManager × Nat) :=
  if tm.active then .error "Transaction already active. COMMIT or ROLLBACK first."
  else
    let peekNextId := nextId + 1
    let frozenCtx :=
      if tm.isolationLevel = .repeatableRead ∨ tm.isolationLevel = .serializable then
        some ⟨nextId, peekNextId, activeTxnIds⟩
      else none
    .ok ({ tm with
            txnId := nextId, active := true, undoLog := [], readSet := [], redoOps := [],
            redoMarks := [], redoIncomplete := false, frozenCtx := frozenCtx }, peekNextId)

/-- `table + '\x00' + pk_col + '\x00' + key`. -/
def encodeRead (table pkCol key : String) : String :=
  String.ofList (table.toList ++ '\x00' :: (pkCol.toList ++ '\x00' :: key.toList))

/-- The three parts between the first two separators. -/
def decodeRead (encoded : String) : String × String × String :=
  let chars := encoded.toList
  let rest := (chars.dropWhile (· ≠ '\x00')).drop 1
  (String.ofList (chars.takeWhile (· ≠ '\x00')), String.ofList (rest.takeWhile (· ≠ '\x00')),
    String.ofList ((rest.dropWhile (· ≠ '\x00')).drop 1))

def recordRead (tm : TxnManager) (table pkCol key : String) : TxnManager :=
  if tm.active = false ∨ tm.isolationLevel ≠ .serializable then tm
  else { tm with readSet := tm.readSet.insert (encodeRead table pkCol key) }

/-- The rows of a read key whose visibility differs between the two contexts. -/
def readConflicts (frozen now : SnapshotCtx) (rows : List Row) (pkCol key : String) : Bool :=
  rows.any fun row =>
    decide (row.find pkCol = some key) && (visibleUnder row frozen != visibleUnder row now)

def serializationFailure (table key : String) : String :=
  "Serialization failure: table '" ++ table ++ "' row '" ++ key ++
    "' was modified by another transaction since this one started. ROLLBACK required."

def validateSerializable (tm : TxnManager) (liveTables : String → List Row)
    (activeTxnIdsNow : Finset Nat) : Except String Unit :=
  if tm.isolationLevel ≠ .serializable then .ok ()
  else match tm.frozenCtx with
    | none => .ok ()
    | some frozen =>
      let nowCtx : SnapshotCtx := ⟨tm.txnId, uint64Max, activeTxnIdsNow⟩
      match tm.readSet.find? fun encoded =>
          let (table, pkCol, key) := decodeRead encoded
          readConflicts frozen nowCtx (liveTables table) pkCol key with
      | some encoded =>
        let (table, _, key) := decodeRead encoded
        .error (serializationFailure table key)
      | none => .ok ()

/-- `dirty_tables`, in the order of their first entries. -/
def dirtyTables (tm : TxnManager) : List String :=
  (tm.undoLog.map (·.table)).dedup

/-- What `commit_finalize`, `rollback` and `abort` do to the manager. -/
def finish (tm : TxnManager) : TxnManager :=
  { tm with
    undoLog := [], frozenCtx := none, readSet := [], redoOps := [], redoMarks := [],
    redoIncomplete := false, savepoints := [], active := false }

/-- One undo entry and the redo operations of the same row change. -/
def pushLog (tm : TxnManager) (ops : List RedoOp) (entry : UndoEntry) : TxnManager :=
  let redoOps := tm.redoOps ++ ops
  if tm.active then
    { tm with
      redoOps := redoOps, redoMarks := tm.redoMarks ++ [redoOps.length],
      undoLog := tm.undoLog ++ [entry] }
  else { tm with redoOps := redoOps }

def logInsert (tm : TxnManager) (table key : String) (data : Row) : TxnManager :=
  tm.pushLog [⟨.insertVersion, table, data, ""⟩] ⟨tm.txnId, .insert, table, key, none, none⟩

/-- `log_update`; `xmin_of_image` of the new image is the id that ends the old one. -/
def logUpdate (tm : TxnManager) (table key : String) (oldData newData : Row)
    (newKey : String) : TxnManager :=
  tm.pushLog
    [⟨.setXmax, table, oldData, (newData.find "_xmin").getD ""⟩,
      ⟨.insertVersion, table, newData, ""⟩]
    ⟨tm.txnId, .update, table, key, some oldData,
      if newKey = "" ∨ newKey = key then none else some newKey⟩

/-- `log_delete`; the id that ends the row is filled in when the batch is written. -/
def logDelete (tm : TxnManager) (table key : String) (oldData : Row) : TxnManager :=
  tm.pushLog [⟨.setXmax, table, oldData, ""⟩]
    ⟨tm.txnId, .delete, table, key, some oldData, none⟩

/-- What a `log_*` call appends to the two files; outside a transaction nothing. -/
def appendFiles (tm : TxnManager) (files : LogFiles) (record : WalRecord)
    (entry : UndoEntry) : LogFiles :=
  if tm.active then ⟨files.wal ++ [record], files.undo ++ [entry]⟩ else files

/-- The file records of `log_insert`. -/
def logInsertFiles (tm : TxnManager) (files : LogFiles) (table key : String) (data : Row) :
    LogFiles :=
  tm.appendFiles files ⟨.insert, tm.txnId, table, key, some data⟩
    ⟨tm.txnId, .insert, table, key, none, none⟩

/-- The file records of `log_update`; the new key is not written to the undo file. -/
def logUpdateFiles (tm : TxnManager) (files : LogFiles) (table key : String)
    (oldData newData : Row) : LogFiles :=
  tm.appendFiles files ⟨.update, tm.txnId, table, key, some newData⟩
    ⟨tm.txnId, .update, table, key, some oldData, none⟩

/-- The file records of `log_delete`. -/
def logDeleteFiles (tm : TxnManager) (files : LogFiles) (table key : String)
    (oldData : Row) : LogFiles :=
  tm.appendFiles files ⟨.delete, tm.txnId, table, key, none⟩
    ⟨tm.txnId, .delete, table, key, some oldData, none⟩

/-- `remove_txn` of both files. -/
def removeTxn (files : LogFiles) (txnId : Nat) : LogFiles :=
  ⟨files.wal.filter (·.txnId ≠ txnId), files.undo.filter (·.txnId ≠ txnId)⟩

theorem takeWhile_append_nul {cs rest : List Char} (h : '\x00' ∉ cs) :
    (cs ++ '\x00' :: rest).takeWhile (· ≠ '\x00') = cs := by
  induction cs with
  | nil => simp
  | cons c cs ih =>
    have hc : c ≠ '\x00' := fun e => h (by simp [e])
    have hcs : '\x00' ∉ cs := fun hm => h (.tail _ hm)
    simp only [List.cons_append]
    rw [List.takeWhile_cons_of_pos (by simpa using hc), ih hcs]

theorem dropWhile_append_nul {cs rest : List Char} (h : '\x00' ∉ cs) :
    (cs ++ '\x00' :: rest).dropWhile (· ≠ '\x00') = '\x00' :: rest := by
  induction cs with
  | nil => simp
  | cons c cs ih =>
    have hc : c ≠ '\x00' := fun e => h (by simp [e])
    have hcs : '\x00' ∉ cs := fun hm => h (.tail _ hm)
    simp only [List.cons_append]
    rw [List.dropWhile_cons_of_pos (by simpa using hc), ih hcs]

theorem decodeRead_encodeRead {table pkCol : String} (key : String)
    (ht : '\x00' ∉ table.toList) (hp : '\x00' ∉ pkCol.toList) :
    decodeRead (encodeRead table pkCol key) = (table, pkCol, key) := by
  simp only [decodeRead, encodeRead, String.toList_ofList, takeWhile_append_nul ht,
    dropWhile_append_nul ht, List.drop_one, List.tail_cons, takeWhile_append_nul hp,
    dropWhile_append_nul hp, String.ofList_toList]

theorem dirtyTables_pushLog {tm : TxnManager} (ops : List RedoOp) (entry : UndoEntry)
    (h : tm.active) {table : String} :
    table ∈ (tm.pushLog ops entry).dirtyTables ↔ table ∈ tm.dirtyTables ∨ table = entry.table := by
  simp [dirtyTables, pushLog, h]

theorem beginWithSnapshot_ok {tm txn : TxnManager} {n n' : Nat} {ids : Finset Nat}
    (h : tm.beginWithSnapshot n ids = .ok (txn, n')) :
    n' = n + 1 ∧ txn.txnId = n ∧ txn.active ∧ tm.active = false ∧
      ∀ ctx, txn.frozenCtx = some ctx → ctx = ⟨n, n + 1, ids⟩ := by
  unfold beginWithSnapshot at h
  split at h
  · cases h
  · rename_i hact
    cases h
    refine ⟨rfl, rfl, rfl, by simpa using hact, fun ctx hctx => ?_⟩
    simp only at hctx
    split at hctx
    · exact (Option.some.inj hctx).symm
    · cases hctx

theorem pushLog_fields (tm : TxnManager) (ops : List RedoOp) (entry : UndoEntry) :
    (tm.pushLog ops entry).txnId = tm.txnId ∧ (tm.pushLog ops entry).active = tm.active ∧
      (tm.pushLog ops entry).frozenCtx = tm.frozenCtx ∧
      (tm.pushLog ops entry).isolationLevel = tm.isolationLevel ∧
      (tm.pushLog ops entry).readSet = tm.readSet := by
  unfold pushLog
  split <;> simp

theorem dirtyTables_subset_pushLog (tm : TxnManager) (ops : List RedoOp)
    (entry : UndoEntry) : tm.dirtyTables ⊆ (tm.pushLog ops entry).dirtyTables := by
  intro table ht
  by_cases h : tm.active = true
  · exact (dirtyTables_pushLog ops entry h).mpr (.inl ht)
  · simpa [pushLog, dirtyTables, h] using ht

theorem recordRead_fields (tm : TxnManager) (table pkCol key : String) :
    (tm.recordRead table pkCol key).txnId = tm.txnId ∧
      (tm.recordRead table pkCol key).active = tm.active ∧
      (tm.recordRead table pkCol key).frozenCtx = tm.frozenCtx ∧
      (tm.recordRead table pkCol key).undoLog = tm.undoLog ∧
      tm.readSet ⊆ (tm.recordRead table pkCol key).readSet := by
  unfold recordRead
  split
  · simp
  · simp only [true_and]
    exact List.subset_insert _ _

end TxnManager

end RusqlEngine
