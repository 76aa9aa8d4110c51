import RusqlEngine.Schema
import RusqlEngine.Undo
import Mathlib.Data.List.Sort

/-!
# Replaying a committed transaction from the WAL

`recover_from_wal` over the table files and the two log files. A replayed record finds its row by
the text of one column, so it acts on each class of rows with the same text by itself. The rows that
are live at the `COMMIT` stay the same exactly when what the records make of each class agrees with
what is stored.
-/

namespace RusqlEngine

open Transition

/-- Replay of an `INSERT` record. -/
def replayInsert (c : String) (row : Row) (rows : List Row) : List Row :=
  let key := (row.find c).getD ""
  if rows.any fun r => r.find c == some key then rows else rows ++ [row]

/-- Replay of an `UPDATE` record: the first row with the key becomes the new image. -/
def replayUpdate (c : String) (newRow : Row) : List Row → List Row
  | [] => []
  | row :: rows =>
    if row.find c = newRow.find c then newRow :: rows else row :: replayUpdate c newRow rows

/-- Replay of a `DELETE` record. -/
def replayDelete (c key : String) (rows : List Row) : List Row :=
  rows.filter fun r => r.find c ≠ some key

/-- One record of a committed transaction on the rows of its table. -/
def replayRows (c : String) (record : WalRecord) (rows : List Row) : List Row :=
  match record.op, record.data with
  | .insert, some row => replayInsert c row rows
  | .update, some row => replayUpdate c row rows
  | .delete, _ => replayDelete c record.key rows
  | _, _ => rows

def replayRecord (catalog : Catalog) (tables : Tables)
    (record : WalRecord) : Tables :=
  fun name =>
    if name = record.tableName then
      (tables name).map (replayRows (pkCol (catalog name)) record)
    else tables name

def WalOp.isDml : WalOp → Bool
  | .insert | .update | .delete => true
  | _ => false

def afterCheckpoint (wal : List WalRecord) : List WalRecord :=
  (wal.reverse.takeWhile fun r => r.op ≠ .checkpoint).reverse

def replayOrder (records : List WalRecord) : List Nat :=
  (((records.filter (·.op.isDml)).map (·.txnId)).dedup).insertionSort (· ≤ ·)

def committedIn (records : List WalRecord) (txnId : Nat) : Bool :=
  records.any fun r => r.op == .commit && r.txnId == txnId

def groupOf (records : List WalRecord) (txnId : Nat) : List WalRecord :=
  records.filter fun r => r.op.isDml && r.txnId == txnId

/-- The work of `recover_from_wal` for one transaction. -/
def recoverTxn (catalog : Catalog) (records : List WalRecord)
    (undo : List UndoEntry) (tables : Tables) (txnId : Nat) : Tables :=
  if committedIn records txnId then
    (groupOf records txnId).foldl (replayRecord catalog) tables
  else fun name => (tables name).map fun rows => recoverUncommitted (fun _ => rows) undo txnId name

def recoverFromWal (catalog : Catalog) (tables : Tables)
    (files : LogFiles) : Tables × LogFiles :=
  if files.wal = [] then (tables, files)
  else
    let records := afterCheckpoint files.wal
    if records = [] then (tables, ⟨[], []⟩)
    else ((replayOrder records).foldl (recoverTxn catalog records files.undo) tables, ⟨[], []⟩)

/-- The rows with `_xmax = 0`, each as often as it is stored. -/
def liveRows (rows : List Row) : Multiset Row :=
  (rows.filter isVisible : List Row)

/-- Recovery leaves the live rows of every table as they were, and a second recovery
changes nothing. -/
def ReplayKeepsLive (catalog : Catalog) (tables : Tables)
    (files : LogFiles) : Prop :=
  let recovered := recoverFromWal catalog tables files
  (∀ name, (recovered.1 name).map liveRows = (tables name).map liveRows) ∧
    recoverFromWal catalog recovered.1 recovered.2 = recovered

/-- The disk after transaction `t` has flushed its tables and written its `COMMIT` record: the table
files have nothing of the open transactions. -/
structure FlushedCommit (t : Nat) (tables : Tables) (files : LogFiles) : Prop where
  committed : committedIn (afterCheckpoint files.wal) t = true
  only : ∀ r ∈ afterCheckpoint files.wal, r.op = .commit → r.txnId = t
  images : ∀ r ∈ afterCheckpoint files.wal, r.txnId = t → ∀ row, r.data = some row →
    row.find "_xmin" = some (stdToString t) ∧ row.find "_xmax" = some "0"
  opened_pos : ∀ e ∈ files.undo, e.txnId ≠ 0
  flushed : ∀ e ∈ files.undo, e.txnId ≠ t → ∀ rows, tables e.table = some rows →
    ∀ row ∈ rows, row.find "_xmin" ≠ some (stdToString e.txnId) ∧
      row.find "_xmax" ≠ some (stdToString e.txnId)

/-- A record as it acts on the rows of one key. -/
inductive KeyOp
  | insert (row : Row)
  | update (row : Row)
  | delete
deriving DecidableEq

namespace KeyOp

def image : KeyOp → Option Row
  | insert row => some row
  | update row => some row
  | delete => none

def updateImage : KeyOp → Option Row
  | update row => some row
  | _ => none

/-- The record on the stored versions of its key. -/
def apply : KeyOp → List Row → List Row
  | insert row, [] => [row]
  | insert _, v :: vs => v :: vs
  | update _, [] => []
  | update row, _ :: vs => row :: vs
  | delete, _ => []

end KeyOp

/-- The record on the rows whose cell in column `c` is `cell`. -/
def keyOp (c : String) (cell : Option String) (record : WalRecord) : Option KeyOp :=
  match record.op, record.data with
  | .insert, some row => if row.find c = cell then some (.insert row) else none
  | .update, some row => if row.find c = cell then some (.update row) else none
  | .delete, _ => if some record.key = cell then some .delete else none
  | _, _ => none

def keyOps (c : String) (cell : Option String) (records : List WalRecord) : List KeyOp :=
  records.filterMap (keyOp c cell)

def lastUpdate (ops : List KeyOp) : Option Row :=
  (ops.filterMap KeyOp.updateImage).getLast?

/-- The image that the first insert and the updates after it leave behind. -/
def survivor : List KeyOp → Option Row
  | [] => none
  | .insert row :: ops => some ((lastUpdate ops).getD row)
  | .update _ :: ops => survivor ops
  | .delete :: ops => survivor ops

/-- The records of one key agree with its stored versions. -/
structure KeySafe (stored : List Row) (ops : List KeyOp) : Prop where
  inserted : KeyOp.delete ∉ ops → stored = [] → ∀ row, KeyOp.insert row ∉ ops
  updated : KeyOp.delete ∉ ops → ∀ first, stored.head? = some first →
    ∀ row, lastUpdate ops = some row → first = row
  deleted : ∀ pre post, ops = pre ++ KeyOp.delete :: post → KeyOp.delete ∉ post →
    stored.filter isVisible = (survivor post).toList

/-- The key has a stored version after the records. -/
def KeyPresent (stored : List Row) (ops : List KeyOp) : Prop :=
  (KeyOp.delete ∉ ops ∧ stored ≠ []) ∨ ∃ pre post row, ops = pre ++ KeyOp.insert row :: post ∧
    KeyOp.delete ∉ post

def rowsWith (c : String) (cell : Option String) (rows : List Row) : List Row :=
  rows.filter fun r => r.find c = cell

/-- The inserts without a key cell all find the empty key. -/
def KeylessInserted (c : String) (rows : List Row) (records : List WalRecord) : Prop :=
  ∀ pre record post row, records = pre ++ record :: post → record.op = .insert →
    record.data = some row → row.find c = none →
      KeyPresent (rowsWith c (some "") rows) (keyOps c (some "") pre)

/-- The records of a table agree with its stored rows: key by key, and for the rows that
lack the key column. -/
structure RowsSafe (c : String) (rows : List Row) (records : List WalRecord) : Prop where
  keyed : ∀ key, KeySafe (rowsWith c (some key) rows) (keyOps c (some key) records)
  keylessInserted : KeylessInserted c rows records
  keylessUpdated : ∀ first, (rowsWith c none rows).head? = some first →
    ∀ row, lastUpdate (keyOps c none records) = some row → first = row

/-- The records of `t` in one table. -/
def recordsOf (wal : List WalRecord) (t : Nat) (name : String) : List WalRecord :=
  (groupOf (afterCheckpoint wal) t).filter fun r => r.tableName = name

/-- The condition of `replayKeepsLive_iff`. -/
def ReplaySafe (catalog : Catalog) (t : Nat) (tables : Tables)
    (files : LogFiles) : Prop :=
  ∀ name rows, tables name = some rows →
    RowsSafe (pkCol (catalog name)) rows (recordsOf files.wal t name)

theorem rowsWith_append (c : String) (cell : Option String) (rows : List Row) (row : Row) :
    rowsWith c cell (rows ++ [row]) =
      rowsWith c cell rows ++ if row.find c = cell then [row] else [] := by
  unfold rowsWith
  rw [List.filter_append]
  by_cases h : row.find c = cell
  · simp [h]
  · simp [h]

variable {c : String} {rows : List Row}

theorem any_find_iff {key : String} :
    (rows.any fun r => r.find c == some key) ↔ rowsWith c (some key) rows ≠ [] := by
  simp [rowsWith, List.filter_eq_nil_iff]

theorem rowsWith_replayUpdate (c : String) (newRow : Row) (cell : Option String)
    (rows : List Row) : rowsWith c cell (replayUpdate c newRow rows) =
      if newRow.find c = cell then (KeyOp.update newRow).apply (rowsWith c cell rows)
      else rowsWith c cell rows := by
  induction rows with
  | nil => simp [replayUpdate, rowsWith, KeyOp.apply]
  | cons row rows ih =>
    by_cases hsame : row.find c = newRow.find c
    · by_cases hcell : newRow.find c = cell
      · simp [replayUpdate, rowsWith, hsame, hcell, KeyOp.apply]
      · simp [replayUpdate, rowsWith, hsame, hcell]
    · by_cases hcell : newRow.find c = cell
      · have hrow : row.find c ≠ cell := fun h => hsame (h.trans hcell.symm)
        simp only [rowsWith, hcell, if_true] at ih
        simp [replayUpdate, rowsWith, hcell, hrow, ih]
      · simp only [rowsWith, hcell, if_false] at ih
        simp [replayUpdate, rowsWith, hsame, hcell, ih, List.filter_cons]

theorem rowsWith_replayDelete (c key : String) (cell : Option String) (rows : List Row) :
    rowsWith c cell (replayDelete c key rows) =
      if some key = cell then [] else rowsWith c cell rows := by
  unfold rowsWith replayDelete
  rw [List.filter_filter]
  split
  · rename_i h
    subst h
    simp
  · rename_i h
    apply List.filter_congr
    intro r _
    by_cases hr : r.find c = cell
    · have hne : cell ≠ some key := fun e => h e.symm
      simp [hr, hne]
    · simp [hr]

theorem rowsWith_replayRows (c key : String) (record : WalRecord) (rows : List Row) :
    rowsWith c (some key) (replayRows c record rows) =
      (keyOp c (some key) record).elim (rowsWith c (some key) rows)
        fun op => op.apply (rowsWith c (some key) rows) := by
  obtain ⟨op, txnId, tableName, recordKey, data⟩ := record
  cases op with
  | insert =>
    cases data with
    | none => rfl
    | some row =>
      simp only [replayRows, replayInsert, keyOp]
      by_cases hcell : row.find c = some key
      · simp only [hcell, Option.getD_some, if_true, Option.elim_some]
        by_cases hany : (rows.any fun r => r.find c == some key) = true
        · obtain ⟨v, vs, hvs⟩ := List.exists_cons_of_ne_nil (any_find_iff.mp hany)
          rw [if_pos hany, hvs]
          rfl
        · have hnil : rowsWith c (some key) rows = [] :=
            not_not.mp fun h => hany (any_find_iff.mpr h)
          rw [if_neg hany, rowsWith_append, hnil, if_pos hcell]
          rfl
      · simp only [hcell, if_false, Option.elim_none]
        split
        · rfl
        · rw [rowsWith_append, if_neg hcell, List.append_nil]
  | update =>
    cases data with
    | none => rfl
    | some row =>
      simp only [replayRows, rowsWith_replayUpdate, keyOp]
      by_cases hcell : row.find c = some key
      · simp [hcell]
      · simp [hcell]
  | delete =>
    simp only [replayRows, rowsWith_replayDelete, keyOp]
    by_cases hkey : recordKey = key
    · simp [hkey, KeyOp.apply]
    · simp [hkey]
  | commit => rfl
  | rollback => rfl
  | checkpoint => rfl

theorem rowsWith_foldl (c key : String) (records : List WalRecord) (rows : List Row) :
    rowsWith c (some key) (records.foldl (fun rows r => replayRows c r rows) rows) =
      (keyOps c (some key) records).foldl (fun vs op => op.apply vs)
        (rowsWith c (some key) rows) := by
  induction records generalizing rows with
  | nil => rfl
  | cons record records ih =>
    rw [List.foldl_cons, ih, rowsWith_replayRows]
    cases hop : keyOp c (some key) record with
    | none | some op => simp [keyOps, hop]

theorem lastUpdate_update_cons (row : Row) (ops : List KeyOp) :
    lastUpdate (.update row :: ops) = some ((lastUpdate ops).getD row) := by
  simp [lastUpdate, KeyOp.updateImage, List.getLast?_cons]

theorem lastUpdate_insert_cons (row : Row) (ops : List KeyOp) :
    lastUpdate (.insert row :: ops) = lastUpdate ops := by
  simp [lastUpdate, KeyOp.updateImage]

variable {ops : List KeyOp}

theorem foldl_apply_cons (h : KeyOp.delete ∉ ops) (first : Row) (vs : List Row) :
    ops.foldl (fun vs op => op.apply vs) (first :: vs) = (lastUpdate ops).getD first :: vs := by
  induction ops generalizing first with
  | nil => rfl
  | cons op ops ih =>
    have hops : KeyOp.delete ∉ ops := fun hin => h (.tail _ hin)
    cases op with
    | insert row =>
      rw [List.foldl_cons, KeyOp.apply, ih hops, lastUpdate_insert_cons]
    | update row =>
      rw [List.foldl_cons, KeyOp.apply, ih hops, lastUpdate_update_cons, Option.getD_some]
    | delete => exact absurd List.mem_cons_self h

theorem foldl_apply_nil (h : KeyOp.delete ∉ ops) :
    ops.foldl (fun vs op => op.apply vs) [] = (survivor ops).toList := by
  induction ops with
  | nil => rfl
  | cons op ops ih =>
    have hops : KeyOp.delete ∉ ops := fun hin => h (.tail _ hin)
    cases op with
    | insert row =>
      rw [List.foldl_cons, KeyOp.apply, foldl_apply_cons hops]
      rfl
    | update row =>
      rw [List.foldl_cons, KeyOp.apply, ih hops]
      rfl
    | delete => exact absurd List.mem_cons_self h

theorem foldl_apply_deleted {pre post : List KeyOp} (h : KeyOp.delete ∉ post) (stored : List Row) :
    (pre ++ KeyOp.delete :: post).foldl (fun vs op => op.apply vs) stored =
      (survivor post).toList := by
  rw [List.foldl_append, List.foldl_cons, KeyOp.apply, foldl_apply_nil h]

theorem exists_last_delete (h : KeyOp.delete ∈ ops) :
    ∃ pre post, ops = pre ++ KeyOp.delete :: post ∧ KeyOp.delete ∉ post := by
  obtain ⟨post, pre, hrev, hpost⟩ := List.eq_append_cons_of_mem (List.mem_reverse.mpr h)
  refine ⟨pre.reverse, post.reverse, ?_, fun hin => hpost (List.mem_reverse.mp hin)⟩
  rw [← List.reverse_reverse ops, hrev]
  simp

theorem survivor_eq_none_iff : survivor ops = none ↔ ∀ row, KeyOp.insert row ∉ ops := by
  induction ops with
  | nil => simp [survivor]
  | cons op ops ih =>
    cases op with
    | insert row =>
      simp only [survivor, reduceCtorEq, false_iff, not_forall, not_not]
      exact ⟨row, List.mem_cons_self⟩
    | update row | delete => simp [survivor, ih]

def LiveImages (ops : List KeyOp) : Prop :=
  ∀ op ∈ ops, ∀ row, op.image = some row → isVisible row

theorem LiveImages.of_cons {op : KeyOp} (h : LiveImages (op :: ops)) : LiveImages ops :=
  fun o ho => h o (.tail _ ho)

variable {row : Row}

theorem LiveImages.lastUpdate (h : LiveImages ops) (hrow : lastUpdate ops = some row) :
    isVisible row := by
  obtain ⟨op, hop, himage⟩ := List.mem_filterMap.mp (List.mem_of_getLast? hrow)
  refine h op hop row ?_
  cases op with
  | insert r => cases himage
  | update r => exact himage
  | delete => cases himage

theorem LiveImages.survivor (h : LiveImages ops) (hrow : survivor ops = some row) :
    isVisible row := by
  induction ops with
  | nil => cases hrow
  | cons op ops ih =>
    cases op with
    | insert r =>
      simp only [RusqlEngine.survivor, Option.some.injEq] at hrow
      subst hrow
      cases hlast : RusqlEngine.lastUpdate ops with
      | none => exact h (.insert r) List.mem_cons_self r rfl
      | some u => exact h.of_cons.lastUpdate hlast
    | update r | delete => exact ih h.of_cons hrow

theorem liveRows_cons_eq_iff {first : Row} {vs : List Row} (h : isVisible row) :
    liveRows (row :: vs) = liveRows (first :: vs) ↔ first = row := by
  constructor
  · intro heq
    by_cases hfirst : isVisible first = true
    · simp only [liveRows, List.filter_cons_of_pos h, List.filter_cons_of_pos hfirst,
        ← Multiset.cons_coe] at heq
      exact ((Multiset.cons_inj_left _).mp heq).symm
    · simp only [liveRows, List.filter_cons_of_pos h, List.filter_cons_of_neg hfirst] at heq
      have hcard := congrArg Multiset.card heq
      simp at hcard
  · intro heq
    rw [heq]

variable {stored : List Row}

theorem liveRows_toList_eq_iff {o : Option Row} (h : ∀ row, o = some row → isVisible row) :
    liveRows o.toList = liveRows stored ↔ stored.filter isVisible = o.toList := by
  have hlive : o.toList.filter isVisible = o.toList := by
    cases o with
    | none => rfl
    | some row => simp [h row rfl]
  rw [liveRows, hlive, liveRows, Multiset.coe_eq_coe, List.perm_comm]
  cases o with
  | none => simp
  | some row => simp

/-- The live versions of a key survive the replay exactly if the records agree with what is
stored. -/
theorem keySafe_iff (hlive : LiveImages ops) :
    liveRows (ops.foldl (fun vs op => op.apply vs) stored) = liveRows stored ↔
      KeySafe stored ops := by
  by_cases hdelete : KeyOp.delete ∈ ops
  · obtain ⟨pre, post, rfl, hpost⟩ := exists_last_delete hdelete
    have hsurvivor : ∀ row, survivor post = some row → isVisible row :=
      fun row hrow => LiveImages.survivor
        (fun op hop => hlive op (List.mem_append_right _ (.tail _ hop))) hrow
    rw [foldl_apply_deleted hpost, liveRows_toList_eq_iff hsurvivor]
    constructor
    · intro heq
      refine ⟨fun hnot => absurd hdelete hnot, fun hnot => absurd hdelete hnot, ?_⟩
      intro pre' post' hsplit hpost'
      have hsame : (pre' ++ KeyOp.delete :: post').foldl (fun vs op => op.apply vs) stored =
          (survivor post').toList := foldl_apply_deleted hpost' stored
      rw [← hsplit, foldl_apply_deleted hpost] at hsame
      rw [heq, hsame]
    · exact fun hsafe => hsafe.deleted pre post rfl hpost
  · have hsplit : ∀ pre post, ops ≠ pre ++ KeyOp.delete :: post := by
      rintro pre post rfl
      exact hdelete (List.mem_append_right _ List.mem_cons_self)
    cases stored with
    | nil =>
      rw [foldl_apply_nil hdelete, liveRows_toList_eq_iff fun row => hlive.survivor]
      constructor
      · intro heq
        have hnone : survivor ops = none := by simpa using heq.symm
        exact ⟨fun _ _ => survivor_eq_none_iff.mp hnone, fun _ _ h => by simp at h,
          fun pre post h => absurd h (hsplit pre post)⟩
      · intro hsafe
        rw [survivor_eq_none_iff.mpr (hsafe.inserted hdelete rfl)]
        rfl
    | cons first vs =>
      rw [foldl_apply_cons hdelete]
      constructor
      · intro heq
        refine ⟨fun _ h => by simp at h, fun _ first' hfirst row hrow => ?_,
          fun pre post h => absurd h (hsplit pre post)⟩
        obtain rfl : first = first' := by simpa using hfirst
        rw [hrow, Option.getD_some] at heq
        exact (liveRows_cons_eq_iff (hlive.lastUpdate hrow)).mp heq
      · intro hsafe
        cases hlast : lastUpdate ops with
        | none => rfl
        | some row =>
          rw [Option.getD_some]
          exact (liveRows_cons_eq_iff (hlive.lastUpdate hlast)).mpr
            (hsafe.updated hdelete first rfl row hlast)

theorem keyPresent_iff :
    ops.foldl (fun vs op => op.apply vs) stored ≠ [] ↔ KeyPresent stored ops := by
  by_cases hdelete : KeyOp.delete ∈ ops
  · obtain ⟨pre, post, rfl, hpost⟩ := exists_last_delete hdelete
    rw [foldl_apply_deleted hpost]
    constructor
    · intro hne
      have hsome : survivor post ≠ none := fun h => hne (by rw [h]; rfl)
      rw [Ne, survivor_eq_none_iff] at hsome
      push Not at hsome
      obtain ⟨row, hrow⟩ := hsome
      obtain ⟨post₁, post₂, rfl⟩ := List.append_of_mem hrow
      refine .inr ⟨pre ++ KeyOp.delete :: post₁, post₂, row, by simp, fun h => hpost ?_⟩
      exact List.mem_append_right _ (.tail _ h)
    · rintro (⟨hnot, -⟩ | ⟨pre', post', row, hsplit, hpost'⟩)
      · exact absurd hdelete hnot
      · intro hnil
        have hnone : survivor post = none := by simpa using hnil
        refine survivor_eq_none_iff.mp hnone row ?_
        rcases List.append_eq_append_iff.mp hsplit with ⟨as, hpre, hpost₁⟩ | ⟨as, hpre, hpost₁⟩
        · cases as with
          | nil => cases hpost₁
          | cons a as =>
            simp only [List.cons_append, List.cons.injEq] at hpost₁
            rw [hpost₁.2]
            exact List.mem_append_right _ List.mem_cons_self
        · cases as with
          | nil => cases hpost₁
          | cons a as =>
            simp only [List.cons_append, List.cons.injEq] at hpost₁
            refine absurd ?_ hpost'
            rw [hpost₁.2]
            exact List.mem_append_right _ List.mem_cons_self
  · cases stored with
    | nil =>
      rw [foldl_apply_nil hdelete]
      constructor
      · intro hne
        have hsome : survivor ops ≠ none := fun h => hne (by rw [h]; rfl)
        rw [Ne, survivor_eq_none_iff] at hsome
        push Not at hsome
        obtain ⟨row, hrow⟩ := hsome
        obtain ⟨pre, post, rfl⟩ := List.append_of_mem hrow
        refine .inr ⟨pre, post, row, rfl, fun h => hdelete ?_⟩
        exact List.mem_append_right _ (.tail _ h)
      · rintro (⟨-, hne⟩ | ⟨pre, post, row, rfl, -⟩)
        · exact absurd rfl hne
        · intro hnil
          have hnone : survivor (pre ++ KeyOp.insert row :: post) = none := by simpa using hnil
          exact survivor_eq_none_iff.mp hnone row
            (List.mem_append_right _ List.mem_cons_self)
    | cons first vs =>
      rw [foldl_apply_cons hdelete]
      exact ⟨fun _ => .inl ⟨hdelete, by simp⟩, fun _ => by simp⟩

/-- A replayed record on the rows that lack the key column: an insert looks for the empty
key. -/
theorem rowsWith_none_replayRows (c : String) (record : WalRecord) (rows : List Row) :
    rowsWith c none (replayRows c record rows) = match keyOp c none record with
      | some (.insert row) =>
        if rowsWith c (some "") rows = [] then rowsWith c none rows ++ [row]
        else rowsWith c none rows
      | some (.update row) => (KeyOp.update row).apply (rowsWith c none rows)
      | _ => rowsWith c none rows := by
  obtain ⟨op, txnId, tableName, recordKey, data⟩ := record
  cases op with
  | insert =>
    cases data with
    | none => rfl
    | some row =>
      simp only [replayRows, replayInsert, keyOp]
      by_cases hcell : row.find c = none
      · simp only [hcell, Option.getD_none, if_true]
        by_cases hany : (rows.any fun r => r.find c == some "") = true
        · rw [if_pos hany, if_neg (any_find_iff.mp hany)]
        · have hnil : rowsWith c (some "") rows = [] :=
            not_not.mp fun h => hany (any_find_iff.mpr h)
          rw [if_neg hany, if_pos hnil, rowsWith_append, if_pos hcell]
      · simp only [hcell, if_false]
        split
        · rfl
        · rw [rowsWith_append, if_neg hcell, List.append_nil]
  | update =>
    cases data with
    | none => rfl
    | some row =>
      simp only [replayRows, rowsWith_replayUpdate, keyOp]
      by_cases hcell : row.find c = none
      · simp [hcell]
      · simp [hcell]
  | delete => simp [replayRows, rowsWith_replayDelete, keyOp]
  | commit => rfl
  | rollback => rfl
  | checkpoint => rfl

def LiveRecords (records : List WalRecord) : Prop :=
  ∀ r ∈ records, ∀ row, r.data = some row → isVisible row

variable {record : WalRecord}

theorem image_of_keyOp {cell : Option String} {op : KeyOp} (h : keyOp c cell record = some op)
    (himage : op.image = some row) : record.data = some row := by
  simp only [keyOp] at h
  split at h
  · rename_i hdata
    simp only [Option.ite_none_right_eq_some, Option.some.injEq] at h
    obtain ⟨-, rfl⟩ := h
    rw [hdata]
    exact himage
  · rename_i hdata
    simp only [Option.ite_none_right_eq_some, Option.some.injEq] at h
    obtain ⟨-, rfl⟩ := h
    rw [hdata]
    exact himage
  · simp only [Option.ite_none_right_eq_some, Option.some.injEq] at h
    obtain ⟨-, rfl⟩ := h
    cases himage
  · cases h

theorem keyOp_eq_insert_iff {cell : Option String} : keyOp c cell record = some (.insert row) ↔
      record.op = .insert ∧ record.data = some row ∧ row.find c = cell := by
  constructor
  · intro h
    have hdata := image_of_keyOp h rfl
    simp only [keyOp, hdata] at h
    split at h
    · rename_i hop hsome
      obtain rfl := Option.some.inj hsome
      exact ⟨hop, hdata, (Option.ite_none_right_eq_some.mp h).1⟩
    · simp at h
    · simp at h
    · cases h
  · rintro ⟨hop, hdata, hcell⟩
    simp [keyOp, hop, hdata, hcell]

variable {records : List WalRecord}

theorem LiveRecords.liveImages (h : LiveRecords records) (c : String) (cell : Option String) :
    LiveImages (keyOps c cell records) := by
  intro op hop row himage
  obtain ⟨r, hr, hrop⟩ := List.mem_filterMap.mp hop
  exact h r hr row (image_of_keyOp hrop himage)

theorem card_liveRows_append (h : isVisible row) :
    (liveRows (rows ++ [row])).card = (liveRows rows).card + 1 := by
  simp [liveRows, h]

theorem card_liveRows_update (h : isVisible row) :
    (liveRows rows).card ≤ (liveRows ((KeyOp.update row).apply rows)).card := by
  cases rows with
  | nil => exact le_rfl
  | cons first vs =>
    simp only [KeyOp.apply, liveRows, List.filter_cons_of_pos h, Multiset.coe_card,
      List.length_cons]
    rw [List.filter_cons]
    split
    · exact le_rfl
    · exact Nat.le_succ _

theorem card_keyless_le (h : LiveRecords records) (c : String) (rows : List Row) :
    (liveRows (rowsWith c none rows)).card ≤
      (liveRows (rowsWith c none
        (records.foldl (fun rows r => replayRows c r rows) rows))).card := by
  induction records generalizing rows with
  | nil => exact le_rfl
  | cons record records ih =>
    refine le_trans ?_ (ih (fun r hr => h r (.tail _ hr)) _)
    rw [rowsWith_none_replayRows]
    have hlive : ∀ op row, keyOp c none record = some op → op.image = some row →
        isVisible row :=
      fun op row hop himage => h record List.mem_cons_self row (image_of_keyOp hop himage)
    split
    · rename_i row hop
      split
      · rw [card_liveRows_append (hlive _ row hop rfl)]
        exact Nat.le_succ _
      · exact le_rfl
    · rename_i row hop
      exact card_liveRows_update (hlive _ row hop rfl)
    · exact le_rfl

theorem replay_append (c : String) (records : List WalRecord) (record : WalRecord)
    (rows : List Row) :
    (records ++ [record]).foldl (fun rows r => replayRows c r rows) rows =
      replayRows c record (records.foldl (fun rows r => replayRows c r rows) rows) := by
  rw [List.foldl_append, List.foldl_cons, List.foldl_nil]

theorem keylessInserted_of_liveRows (h : LiveRecords records)
    (heq : liveRows (rowsWith c none (records.foldl (fun rows r => replayRows c r rows) rows)) =
      liveRows (rowsWith c none rows)) :
    KeylessInserted c rows records := by
  intro pre record post row hsplit hop hdata hcell
  by_contra habsent
  rw [← keyPresent_iff, ← rowsWith_foldl, not_not] at habsent
  subst hsplit
  have hrecord : isVisible row :=
    h record (List.mem_append_right _ List.mem_cons_self) row hdata
  have hkey : keyOp c none record = some (.insert row) :=
    keyOp_eq_insert_iff.mpr ⟨hop, hdata, hcell⟩
  have hpre := card_keyless_le (fun r hr => h r (List.mem_append_left _ hr)) c rows
  have hpost := card_keyless_le
    (fun r hr => h r (List.mem_append_right _ (.tail _ hr))) c
    (replayRows c record (pre.foldl (fun rows r => replayRows c r rows) rows))
  have hgrow : (liveRows (rowsWith c none
      (replayRows c record (pre.foldl (fun rows r => replayRows c r rows) rows)))).card =
      (liveRows (rowsWith c none (pre.foldl (fun rows r => replayRows c r rows) rows))).card +
        1 := by
    rw [rowsWith_none_replayRows, hkey]
    simp only [habsent, if_true]
    exact card_liveRows_append hrecord
  rw [List.foldl_append, List.foldl_cons] at heq
  have hcard := congrArg Multiset.card heq
  omega

theorem KeylessInserted.of_append (h : KeylessInserted c rows (records ++ [record])) :
    KeylessInserted c rows records := by
  intro pre r post row hsplit
  exact h pre r (post ++ [record]) row (by simp [hsplit])

theorem lastUpdate_append (ops : List KeyOp) (op : KeyOp) :
    lastUpdate (ops ++ [op]) = op.updateImage.or (lastUpdate ops) := by
  cases op with
  | insert row | update row | delete => simp [lastUpdate, KeyOp.updateImage]

theorem keyOps_append (c : String) (cell : Option String) (records : List WalRecord)
    (record : WalRecord) :
    keyOps c cell (records ++ [record]) = keyOps c cell records ++
      (keyOp c cell record).toList := by
  cases h : keyOp c cell record with
  | none => simp [keyOps, h]
  | some op => simp [keyOps, h]

/-- The rows that lack the key column, when no insert adds one: the last update replaces the
first of them. -/
theorem keyless_foldl (h : KeylessInserted c rows records) :
    rowsWith c none (records.foldl (fun rows r => replayRows c r rows) rows) =
      match rowsWith c none rows with
      | [] => []
      | first :: vs => (lastUpdate (keyOps c none records)).getD first :: vs := by
  induction records using List.reverseRecOn with
  | nil => cases hrows : rowsWith c none rows <;> simp [hrows, keyOps, lastUpdate]
  | append_singleton records record ih =>
    have ih := ih h.of_append
    rw [replay_append, rowsWith_none_replayRows, keyOps_append]
    split
    · rename_i row hop
      have hpresent : rowsWith c (some "")
          (records.foldl (fun rows r => replayRows c r rows) rows) ≠ [] := by
        obtain ⟨hinsert, hdata, hcell⟩ := keyOp_eq_insert_iff.mp hop
        rw [rowsWith_foldl, keyPresent_iff]
        exact h records record [] row rfl hinsert hdata hcell
      rw [if_neg hpresent, ih, hop, Option.toList_some, lastUpdate_append]
      rfl
    · rename_i row hop
      rw [ih, hop, Option.toList_some, lastUpdate_append]
      cases hrows : rowsWith c none rows with
      | nil => rfl
      | cons first vs => rfl
    · rename_i hinsert hupdate
      rw [ih]
      cases hop : keyOp c none record with
      | none => rw [Option.toList_none, List.append_nil]
      | some op =>
        cases op with
        | insert row => exact absurd hop (hinsert row)
        | update row => exact absurd hop (hupdate row)
        | delete =>
          rw [Option.toList_some, lastUpdate_append]
          rfl

/-- Rows without a key cell survive the replay exactly if no insert adds one and the last
update is the first of them. -/
theorem keyless_iff (h : LiveRecords records) :
    liveRows (rowsWith c none (records.foldl (fun rows r => replayRows c r rows) rows)) =
      liveRows (rowsWith c none rows) ↔
    KeylessInserted c rows records ∧ ∀ first, (rowsWith c none rows).head? = some first →
      ∀ row, lastUpdate (keyOps c none records) = some row → first = row := by
  have hlive := h.liveImages c none
  constructor
  · intro heq
    have hinserted := keylessInserted_of_liveRows h heq
    refine ⟨hinserted, fun first hfirst row hrow => ?_⟩
    rw [keyless_foldl hinserted, hrow] at heq
    cases hrows : rowsWith c none rows with
    | nil => simp [hrows] at hfirst
    | cons first' vs =>
      obtain rfl : first' = first := by simpa [hrows] using hfirst
      rw [hrows] at heq
      exact (liveRows_cons_eq_iff (hlive.lastUpdate hrow)).mp heq
  · rintro ⟨hinserted, hupdated⟩
    rw [keyless_foldl hinserted]
    cases hrows : rowsWith c none rows with
    | nil => rfl
    | cons first vs =>
      cases hlast : lastUpdate (keyOps c none records) with
      | none => rfl
      | some row =>
        refine (liveRows_cons_eq_iff (hlive.lastUpdate hlast)).mpr ?_
        exact hupdated first (by rw [hrows]; rfl) row hlast

theorem liveRows_eq_iff (c : String) {rows' : List Row} :
    liveRows rows' = liveRows rows ↔
      ∀ cell, liveRows (rowsWith c cell rows') = liveRows (rowsWith c cell rows) := by
  have hcomm : ∀ (cell : Option String) (l : List Row), (rowsWith c cell l).filter isVisible =
      (l.filter isVisible).filter fun r => r.find c = cell := by
    intro cell l
    rw [rowsWith, List.filter_filter, List.filter_filter]
    exact List.filter_congr fun r _ => Bool.and_comm _ _
  constructor
  · intro heq cell
    simp only [liveRows, Multiset.coe_eq_coe, hcomm] at heq ⊢
    exact heq.filter _
  · intro hclass
    refine Multiset.ext.mpr fun r => ?_
    have hcount := congrArg (Multiset.count r) (hclass (r.find c))
    have hsame : ∀ l : List Row, (l.filter fun x => x.find c = r.find c).count r = l.count r :=
      fun l => List.count_filter (by simp)
    simp only [liveRows, hcomm, Multiset.coe_count, hsame] at hcount ⊢
    exact hcount

theorem rowsSafe_iff (h : LiveRecords records) :
    liveRows (records.foldl (fun rows r => replayRows c r rows) rows) = liveRows rows ↔
      RowsSafe c rows records := by
  rw [liveRows_eq_iff c]
  constructor
  · intro hclass
    obtain ⟨hinserted, hupdated⟩ := (keyless_iff h).mp (hclass none)
    refine ⟨fun key => ?_, hinserted, hupdated⟩
    rw [← keySafe_iff (h.liveImages c (some key)), ← rowsWith_foldl]
    exact hclass (some key)
  · intro hsafe cell
    cases cell with
    | none => exact (keyless_iff h).mpr ⟨hsafe.keylessInserted, hsafe.keylessUpdated⟩
    | some key =>
      rw [rowsWith_foldl]
      exact (keySafe_iff (h.liveImages c (some key))).mpr (hsafe.keyed key)

theorem foldl_replayRecord (catalog : Catalog) (records : List WalRecord)
    (tables : Tables) (name : String) :
    records.foldl (replayRecord catalog) tables name = (tables name).map
      ((records.filter fun r => r.tableName = name).foldl
        fun rows r => replayRows (pkCol (catalog name)) r rows) := by
  induction records generalizing tables with
  | nil => simp
  | cons record records ih =>
    rw [List.foldl_cons, ih, replayRecord]
    by_cases hname : name = record.tableName
    · subst hname
      rw [if_pos rfl, List.filter_cons_of_pos (by simp), Option.map_map]
      rfl
    · rw [if_neg hname, List.filter_cons_of_neg (by simpa using fun h => hname h.symm)]

theorem mem_replayUpdate {newRow : Row} (h : row ∈ replayUpdate c newRow rows) :
    row ∈ rows ∨ row = newRow := by
  induction rows with
  | nil => exact .inl h
  | cons first rows ih =>
    rw [replayUpdate] at h
    split at h
    · rcases List.mem_cons.mp h with h | h
      · exact .inr h
      · exact .inl (.tail _ h)
    · rcases List.mem_cons.mp h with h | h
      · exact .inl (h ▸ List.mem_cons_self)
      · exact (ih h).imp_left (List.mem_cons_of_mem _)

theorem mem_replayRows (h : row ∈ replayRows c record rows) :
    row ∈ rows ∨ record.data = some row := by
  unfold replayRows at h
  split at h
  · rename_i image _ hdata
    simp only [replayInsert] at h
    split at h
    · exact .inl h
    · rcases List.mem_append.mp h with h | h
      · exact .inl h
      · rw [List.mem_singleton.mp h]
        exact .inr hdata
  · rename_i image _ hdata
    rcases mem_replayUpdate h with h | rfl
    · exact .inl h
    · exact .inr hdata
  · exact .inl (List.mem_of_mem_filter h)
  · exact .inl h

theorem mem_foldl_replayRows (h : row ∈ records.foldl (fun rows r => replayRows c r rows) rows) :
    row ∈ rows ∨ ∃ r ∈ records, r.data = some row := by
  induction records generalizing rows with
  | nil => exact .inl h
  | cons record records ih =>
    rcases ih h with h | ⟨r, hr, hdata⟩
    · rcases mem_replayRows h with h | h
      · exact .inl h
      · exact .inr ⟨record, List.mem_cons_self, h⟩
    · exact .inr ⟨r, List.mem_cons_of_mem _ hr, hdata⟩

/-- The tables hold no stamp of a transaction with undo entries other than `t`. -/
def Unstamped (t : Nat) (undo : List UndoEntry) (tables : Tables) : Prop :=
  ∀ e ∈ undo, e.txnId ≠ t → ∀ rows, tables e.table = some rows → ∀ row ∈ rows,
    row.find "_xmin" ≠ some (stdToString e.txnId) ∧
      row.find "_xmax" ≠ some (stdToString e.txnId)

variable {t : Nat} {tables : Tables}

theorem Unstamped.recoverTxn_eq {u : Nat} {undo : List UndoEntry} (h : Unstamped t undo tables)
    (catalog : Catalog) (hu : u ≠ t) (hopen : committedIn records u = false) :
    recoverTxn catalog records undo tables u = tables := by
  funext name
  rw [recoverTxn, if_neg (by simp [hopen])]
  cases hrows : tables name with
  | none => rfl
  | some rows =>
    simp only [Option.map_some, Option.some.injEq, recoverUncommitted]
    split
    · rename_i hname
      obtain ⟨e, he, rfl⟩ := List.mem_map.mp hname
      obtain ⟨hmem, hid⟩ := List.mem_filter.mp he
      obtain rfl : e.txnId = u := by simpa using hid
      have hsome : ∀ row ∈ rows, undoRow e.txnId row = some row := by
        intro row hrow
        obtain ⟨hmin, hmax⟩ := h e hmem hu rows hrows row hrow
        rw [undoRow, if_neg hmin, if_neg hmax]
      rw [List.filterMap_congr hsome, List.filterMap_some]
    · rfl

theorem Unstamped.foldl_eq {undo : List UndoEntry} (h : Unstamped t undo tables) (catalog : Catalog)
    (honly : ∀ r ∈ records, r.op = .commit → r.txnId = t) :
    ∀ {order : List Nat}, t ∉ order → order.foldl (recoverTxn catalog records undo) tables = tables
  | [], _ => rfl
  | u :: order, hnot => by
      have hu : u ≠ t := fun e => hnot (e ▸ List.mem_cons_self)
      have hopen : committedIn records u = false := by
        rw [committedIn, List.any_eq_false]
        intro r hr hcommit
        obtain ⟨hop, hid⟩ := Bool.and_eq_true_iff.mp hcommit
        exact hu ((beq_iff_eq.mp hid) ▸ honly r hr (beq_iff_eq.mp hop))
      rw [List.foldl_cons, h.recoverTxn_eq catalog hu hopen]
      exact h.foldl_eq catalog honly fun hin => hnot (.tail _ hin)

namespace FlushedCommit

variable {files : LogFiles}

theorem unstamped_replay (h : FlushedCommit t tables files) (catalog : Catalog) :
    Unstamped t files.undo ((groupOf (afterCheckpoint files.wal) t).foldl
      (replayRecord catalog) tables) := by
  intro e he hne rows hrows row hrow
  rw [foldl_replayRecord] at hrows
  obtain ⟨stored, hstored, rfl⟩ := Option.map_eq_some_iff.mp hrows
  rcases mem_foldl_replayRows hrow with hold | ⟨r, hr, hdata⟩
  · exact h.flushed e he hne stored hstored row hold
  · have hgroup := (List.mem_filter.mp (List.mem_filter.mp hr).1)
    have hid : r.txnId = t := by simpa using (Bool.and_eq_true_iff.mp hgroup.2).2
    obtain ⟨hmin, hmax⟩ := h.images r hgroup.1 hid row hdata
    rw [hmin, hmax]
    refine ⟨fun heq => hne ?_, fun heq => h.opened_pos e he ?_⟩
    · exact (stdToString_injective (Option.some.inj heq)).symm
    · exact stdToString_eq_zero_iff.mp (Option.some.inj heq).symm

theorem records_ne_nil (h : FlushedCommit t tables files) :
    afterCheckpoint files.wal ≠ [] ∧ files.wal ≠ [] := by
  have hrecords : afterCheckpoint files.wal ≠ [] := by
    intro hnil
    have hcommitted := h.committed
    rw [hnil] at hcommitted
    cases hcommitted
  refine ⟨hrecords, fun hnil => hrecords ?_⟩
  rw [hnil]
  rfl

theorem recoverFromWal_eq (h : FlushedCommit t tables files) (catalog : Catalog) :
    recoverFromWal catalog tables files = ((groupOf (afterCheckpoint files.wal) t).foldl
      (replayRecord catalog) tables, ⟨[], []⟩) := by
  obtain ⟨hrecords, hwal⟩ := h.records_ne_nil
  have hstored : Unstamped t files.undo tables := h.flushed
  simp only [recoverFromWal, if_neg hwal, if_neg hrecords, Prod.mk.injEq, and_true]
  by_cases ht : t ∈ replayOrder (afterCheckpoint files.wal)
  · obtain ⟨before, after, hsplit⟩ := List.append_of_mem ht
    have hnodup : (before ++ t :: after).Nodup := by
      rw [← hsplit]
      exact (List.perm_insertionSort _ _).nodup_iff.mpr (List.nodup_dedup _)
    have hbefore : t ∉ before := fun hin =>
      (List.nodup_append.mp hnodup).2.2 t hin t List.mem_cons_self rfl
    have hafter : t ∉ after := (List.nodup_cons.mp (List.nodup_append.mp hnodup).2.1).1
    rw [hsplit, List.foldl_append, List.foldl_cons, hstored.foldl_eq catalog h.only hbefore,
      recoverTxn, if_pos h.committed, (h.unstamped_replay catalog).foldl_eq catalog h.only hafter]
  · have hgroup : groupOf (afterCheckpoint files.wal) t = [] := by
      rw [groupOf, List.filter_eq_nil_iff]
      intro r hr hdml
      obtain ⟨hop, hid⟩ := Bool.and_eq_true_iff.mp hdml
      refine ht ((List.mem_insertionSort _).mpr (List.mem_dedup.mpr (List.mem_map.mpr
        ⟨r, List.mem_filter.mpr ⟨hr, hop⟩, beq_iff_eq.mp hid⟩)))
    rw [hstored.foldl_eq catalog h.only ht, hgroup, List.foldl_nil]

end FlushedCommit

/-- Recovery keeps the live rows of every table, and does nothing the second time, exactly if
the records of the committed transaction agree with the stored rows key by key. -/
theorem replayKeepsLive_iff {t : Nat} {tables : Tables} {files : LogFiles}
    (catalog : Catalog) (h : FlushedCommit t tables files) :
    ReplayKeepsLive catalog tables files ↔ ReplaySafe catalog t tables files := by
  have hlive : ∀ name, LiveRecords (recordsOf files.wal t name) := by
    intro name r hr row hdata
    obtain ⟨hmem, hgroup⟩ := List.mem_filter.mp (List.mem_filter.mp hr).1
    have hid : r.txnId = t := by simpa using (Bool.and_eq_true_iff.mp hgroup).2
    simp [isVisible, (h.images r hmem hid row hdata).2]
  have hsecond : ∀ tables' : Tables,
      recoverFromWal catalog tables' ⟨[], []⟩ = (tables', ⟨[], []⟩) := fun _ => rfl
  simp only [ReplayKeepsLive, h.recoverFromWal_eq catalog, hsecond, and_true, foldl_replayRecord]
  constructor
  · intro hkeeps name rows hrows
    refine (rowsSafe_iff (hlive name)).mp ?_
    have hname := hkeeps name
    rw [hrows] at hname
    exact Option.some.inj hname
  · intro hsafe name
    cases hrows : tables name with
    | none => rfl
    | some rows =>
      rw [Option.map_some, Option.map_some, Option.map_some, Option.some.injEq]
      exact (rowsSafe_iff (hlive name)).mpr (hsafe name rows hrows)

namespace Writing

/-- The table files once `t` has flushed its tables. -/
def flushedTables (s : Writing) (t : Nat) : Tables :=
  fun name => some (saveCommitted s.opened t (s.tables name))

/-- The log files once `t` has written its `COMMIT` record. -/
def commitFiles (s : Writing) (t : Nat) : LogFiles :=
  ⟨s.files.wal ++ [⟨.commit, t, "", "", none⟩], s.files.undo⟩

end Writing

/-- The log files hold the row records of open transactions, with tagged images. -/
structure LoggedInv (s : Writing) : Prop where
  wal : ∀ r ∈ s.files.wal, r.op.isDml ∧ ∀ row, r.data = some row →
    row.find "_xmin" = some (stdToString r.txnId) ∧ row.find "_xmax" = some "0"
  undo : ∀ e ∈ s.files.undo, e.txnId ∈ s.opened

theorem LoggedInv.append {s s' : Writing} {entry : UndoEntry} (h : LoggedInv s) (ht : t ∈ s.opened)
    (hid : (s.txns t).txnId = t) (hfiles : s'.files = (s.txns t).appendFiles s.files record entry)
    (hopened : s'.opened = s.opened) (hentry : entry.txnId = (s.txns t).txnId)
    (hdml : record.op.isDml) (hdata : ∀ row, record.data = some row →
      row.find "_xmin" = some (stdToString record.txnId) ∧ row.find "_xmax" = some "0") :
    LoggedInv s' := by
  rw [TxnManager.appendFiles] at hfiles
  split at hfiles
  · refine ⟨fun r hr => ?_, fun e he => ?_⟩
    · rw [hfiles] at hr
      rcases List.mem_append.mp hr with hr | hr
      · exact h.wal r hr
      · rw [List.mem_singleton.mp hr]
        exact ⟨hdml, hdata⟩
    · rw [hfiles] at he
      rw [hopened]
      rcases List.mem_append.mp he with he | he
      · exact h.undo e he
      · rw [List.mem_singleton.mp he, hentry, hid]
        exact ht
  · exact ⟨fun r hr => h.wal r (hfiles ▸ hr), fun e he => hopened ▸ h.undo e (hfiles ▸ he)⟩

theorem LoggedInv.step {s s' : Writing} {e : Write} (h : LoggedInv s) (hinv : WritingInv s)
    (hs : writeStep s e = some s') : LoggedInv s' := by
  have htag : ∀ {t : Nat} {row image : Row}, t ∈ s.opened → some (row.tag t) = some image →
      image.find "_xmin" = some (stdToString (s.txns t).txnId) ∧
        image.find "_xmax" = some "0" := by
    intro t row image ht himage
    obtain rfl := Option.some.inj himage
    rw [(hinv.managed t ht).2]
    exact ⟨row.find_tag_xmin t, row.find_tag_xmax t⟩
  cases e with
  | insert t label table key row =>
    obtain ⟨⟨ht, -⟩, rfl⟩ := writeStep_insert_iff.mp hs
    exact h.append ht (hinv.managed t ht).2 rfl rfl rfl rfl fun _ himage => htag ht himage
  | delete t label key =>
    obtain ⟨w, -, ⟨ht, -⟩, rfl⟩ := writeStep_delete_iff.mp hs
    exact h.append ht (hinv.managed t ht).2 rfl rfl rfl rfl fun _ himage => by cases himage
  | update t label newLabel key newKey row =>
    obtain ⟨w, -, ⟨ht, -⟩, rfl⟩ := writeStep_update_iff.mp hs
    exact h.append ht (hinv.managed t ht).2 rfl rfl rfl rfl fun _ himage => htag ht himage
  | commit t =>
    obtain ⟨ht, rfl⟩ := writeStep_commit_iff.mp hs
    refine ⟨fun r hr => h.wal r (List.mem_of_mem_filter hr), fun e he => ?_⟩
    obtain ⟨he, hne⟩ := List.mem_filter.mp he
    exact Finset.mem_erase.mpr ⟨by simpa using hne, h.undo e he⟩

theorem leaveOutVersion_unstamped {ids : Finset Nat} {v v' : Version} (h0 : 0 ∉ ids)
    (h : leaveOutVersion ids v = some v') : v'.row.xmin ∉ ids ∧ v'.row.xmax ∉ ids := by
  unfold leaveOutVersion at h
  split at h
  · cases h
  · rename_i hmin
    split at h
    · cases h
      rw [Row.xmin_set_xmax, Row.xmax_revived]
      exact ⟨hmin, h0⟩
    · rename_i hmax
      cases h
      exact ⟨hmin, hmax⟩

theorem Writing.Fresh.flushedCommit {s₀ s : Writing} {es : List Write} (h : s₀.Fresh)
    (hfiles : s₀.files = ⟨[], []⟩) (hs : exec writeStep s₀ es = some s) (t : Nat) :
    FlushedCommit t (s.flushedTables t) (s.commitFiles t) := by
  have hstart : WritingInv s₀ ∧ LoggedInv s₀ :=
    ⟨h.inv, fun r hr => by simp [hfiles] at hr, fun e he => by simp [hfiles] at he⟩
  have hstep : ∀ s e s', WritingInv s ∧ LoggedInv s → anyStep s e →
      writeStep s e = some s' → WritingInv s' ∧ LoggedInv s' :=
    fun _ _ _ hboth _ he => ⟨hboth.1.step he, hboth.2.step hboth.1 he⟩
  obtain ⟨hinv, hlogged⟩ := (Reaches.of_exec es
    (execOk_anyStep writeStep s₀ es) hs).invariant hstep hstart
  have hafter : afterCheckpoint (s.commitFiles t).wal = (s.commitFiles t).wal := by
    rw [afterCheckpoint, List.takeWhile_eq_self_iff.mpr, List.reverse_reverse]
    intro r hr
    rcases List.mem_append.mp (List.mem_reverse.mp hr) with hr | hr
    · have hdml := (hlogged.wal r hr).1
      simp only [ne_eq, decide_eq_true_eq]
      rintro hop
      rw [hop] at hdml
      cases hdml
    · rw [List.mem_singleton.mp hr]
      rfl
  refine ⟨?_, ?_, ?_, ?_, ?_⟩
  · rw [hafter, committedIn, List.any_eq_true]
    exact ⟨_, List.mem_append_right _ (List.mem_singleton_self _), by simp⟩
  · rw [hafter]
    intro r hr hop
    rcases List.mem_append.mp hr with hr | hr
    · have hdml := (hlogged.wal r hr).1
      rw [hop] at hdml
      cases hdml
    · rw [List.mem_singleton.mp hr]
  · rw [hafter]
    intro r hr hid row hdata
    rcases List.mem_append.mp hr with hr | hr
    · rw [← hid]
      exact (hlogged.wal r hr).2 row hdata
    · rw [List.mem_singleton.mp hr] at hdata
      cases hdata
  · exact fun e he => (hinv.id_pos _ (hlogged.undo e he)).1.ne'
  · intro e he hne rows hrows row hrow
    obtain rfl := Option.some.inj hrows
    rw [hinv.saveCommitted_eq] at hrow
    obtain ⟨v', hv', rfl⟩ := List.mem_map.mp hrow
    obtain ⟨v, hv, hleave⟩ := mem_leaveOut (List.mem_of_mem_filter hv')
    have hopen : e.txnId ∈ s.opened.erase t := Finset.mem_erase.mpr ⟨hne, hlogged.undo e he⟩
    have hsigned := (stamps_of_leaveOutVersion (hinv.signed v hv) hleave).1
    obtain ⟨hmin, hmax⟩ := leaveOutVersion_unstamped
      (hinv.zero_notMem (Finset.erase_subset t s.opened)) hleave
    rw [hsigned.find_xmin, hsigned.find_xmax]
    refine ⟨fun heq => hmin ?_, fun heq => hmax ?_⟩
    · rw [stdToString_injective (Option.some.inj heq)]
      exact hopen
    · rw [stdToString_injective (Option.some.inj heq)]
      exact hopen

def usersCatalog : Catalog
  | "users" => some ⟨[⟨"id", true, false⟩, ⟨"v", false, false⟩], [], []⟩
  | _ => none

/-- A table with one committed row, and transaction 2 open. -/
def oneUser : Writing where
  store := [⟨0, "users", (Row.ofCells [("id", "1"), ("v", "a")]).tag 1⟩]
  opened := {2}
  txns := fun t => { TxnManager.fresh with txnId := t, active := true }
  files := ⟨[], []⟩

/-- `UPDATE users SET v = 'b' WHERE id = 1`. -/
def updateUser : List Write :=
  [.update 2 0 1 "1" "1" (Row.ofCells [("id", "1"), ("v", "b")])]

/-- `INSERT INTO users VALUES (2, 'b')`. -/
def insertUser : List Write :=
  [.insert 2 1 "users" "2" (Row.ofCells [("id", "2"), ("v", "b")])]

theorem oneUser_fresh : oneUser.Fresh := by
  have hone : 1 ≤ uint64Max := by decide
  refine ⟨by decide, ?_, by decide, fun t _ => ⟨rfl, rfl⟩, by decide⟩
  intro v hv
  obtain rfl := List.mem_singleton.mp hv
  exact Signed.tag (Row.ofCells [("id", "1"), ("v", "a")]) hone

/-- After the replay of an update the row is there twice: the ended version has become a
second copy of the new image. -/
theorem replay_of_update_duplicates_row :
    ∃ s, Transition.exec writeStep oneUser updateUser = some s ∧
      FlushedCommit 2 (s.flushedTables 2) (s.commitFiles 2) ∧
      ¬ ReplayKeepsLive usersCatalog (s.flushedTables 2) (s.commitFiles 2) := by
  obtain ⟨s, hs⟩ : ∃ s, Transition.exec writeStep oneUser updateUser = some s :=
    Option.isSome_iff_exists.mp (by decide)
  have hcards : (Transition.exec writeStep oneUser updateUser).map (fun s =>
      (((recoverFromWal usersCatalog (s.flushedTables 2) (s.commitFiles 2)).1 "users").map
        fun rows => (liveRows rows).card,
      (s.flushedTables 2 "users").map fun rows => (liveRows rows).card)) =
      some (some 2, some 1) := by decide
  rw [hs, Option.map_some, Option.some.injEq] at hcards
  obtain ⟨hafter, hbefore⟩ := Prod.mk.inj hcards
  refine ⟨s, hs, oneUser_fresh.flushedCommit rfl hs 2, fun hkeeps => ?_⟩
  have hsame := congrArg (Option.map Multiset.card) (hkeeps.1 "users")
  rw [Option.map_map, Option.map_map] at hsame
  have hfalse : some 2 = some 1 := hafter.symm.trans (hsame.trans hbefore)
  cases hfalse

theorem replayKeepsLive_iff_insertUser :
    ∃ s, Transition.exec writeStep oneUser insertUser = some s ∧
      FlushedCommit 2 (s.flushedTables 2) (s.commitFiles 2) ∧
      (ReplayKeepsLive usersCatalog (s.flushedTables 2) (s.commitFiles 2) ↔
        ReplaySafe usersCatalog 2 (s.flushedTables 2) (s.commitFiles 2)) := by
  obtain ⟨s, hs⟩ : ∃ s, Transition.exec writeStep oneUser insertUser = some s :=
    Option.isSome_iff_exists.mp (by decide)
  have hcommit := oneUser_fresh.flushedCommit rfl hs 2
  exact ⟨s, hs, hcommit, replayKeepsLive_iff usersCatalog hcommit⟩

end RusqlEngine
