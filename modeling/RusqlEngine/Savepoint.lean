import RusqlEngine.Library.Transition
import RusqlEngine.Schema
import RusqlEngine.TxnManager

/-!
# ROLLBACK TO SAVEPOINT

`exec_rollback_to` undoes the entries of the undo log from the last to the first and finds the row
of each again by the text of one column, the stamps and the old image. Undoing restores the rows of
the savepoint exactly when no version that the transaction had made before the savepoint is taken
for one that it made later.
-/

namespace RusqlEngine

open Transition TxnManager Function

namespace TxnManager

def createSavepoint (tm : TxnManager) (name : String) : Except String TxnManager :=
  if tm.active = false then .error "No active transaction. Use BEGIN first."
  else .ok { tm with
    savepoints := tm.savepoints.filter (·.1 ≠ name) ++ [(name, tm.undoLog.length)] }

/-- `rollback_to_savepoint`: the entries since the savepoint, the last one first. -/
def rollbackToSavepoint (tm : TxnManager) (name : String) :
    Except String (TxnManager × List UndoEntry) :=
  if tm.active = false then .error "No active transaction."
  else
    let upTo := tm.savepoints.reverse.dropWhile (·.1 ≠ name)
    match upTo with
    | [] => .error ("Savepoint '" ++ name ++ "' not found")
    | (_, undoLen) :: _ =>
      let redoLen := if undoLen = 0 then 0 else (tm.redoMarks[undoLen - 1]?).getD 0
      .ok ({ tm with
        undoLog := tm.undoLog.take undoLen
        redoOps := tm.redoOps.take redoLen
        redoMarks := tm.redoMarks.take undoLen
        savepoints := upTo.reverse }, (tm.undoLog.drop undoLen).reverse)

end TxnManager

/-- Every cell of the image but `_xmax` is in the row. -/
def matchesImage (image row : Row) : Bool :=
  decide (∀ col ∈ image.keys, col = "_xmax" ∨ row.find col = image.find col)

/-- `row["_xmax"] = "0"` on the first row that the loop accepts. -/
def reviveFirst (accepts : Row → Bool) : List Row → List Row
  | [] => []
  | row :: rows =>
    if accepts row then row.set "_xmax" "0" :: rows else row :: reviveFirst accepts rows

/-- A version that the transaction has ended, found by its key and its old image. -/
def endedMatch (pk txnIdStr : String) (entry : UndoEntry) (row : Row) : Bool :=
  decide (row.find pk = some entry.key) && decide (row.find "_xmax" = some txnIdStr) &&
    entry.oldData.all fun image => matchesImage image row

/-- One entry of `exec_rollback_to` on the rows of its table. -/
def undoEntryRows (pk txnIdStr : String) (entry : UndoEntry) (rows : List Row) : List Row :=
  match entry.operation with
  | .insert => rows.filter fun r =>
    !(decide (r.find pk = some entry.key) && decide (r.find "_xmin" = some txnIdStr))
  | .update =>
    if entry.oldData.isNone then rows
    else
      let tipKey := entry.newKey.getD entry.key
      reviveFirst (endedMatch pk txnIdStr entry) (rows.filter fun r =>
        !(decide (r.find pk = some tipKey) && decide (r.find "_xmin" = some txnIdStr) &&
          decide (r.find "_xmax" = some "0")))
  | .delete => reviveFirst (endedMatch pk txnIdStr entry) rows

def undoEntryTables (catalog : Catalog) (txnIdStr : String) (tables : Tables)
    (entry : UndoEntry) : Tables :=
  fun name =>
    if name = entry.table then
      (tables name).map (undoEntryRows (pkCol (catalog name)) txnIdStr entry)
    else tables name

def execRollbackTo (catalog : Catalog) (tables : Tables) (txn : TxnManager) (name : String) :
    Except String (Tables × TxnManager) :=
  match txn.rollbackToSavepoint name with
  | .error message => .error message
  | .ok (txn', entries) =>
    .ok (entries.foldl (undoEntryTables catalog (stdToString txn'.currentTxnId)) tables, txn')

/-- An open transaction and the tables, which nobody else writes. -/
structure OpenTxn where
  tables : Tables
  txn : TxnManager

/-- A row write of the transaction. Rows are named by their positions; `cascade` marks the
writes of `cascade_write`. -/
inductive RowWrite
  | insert (table : String) (row : Row)
  | update (table : String) (pos : Nat) (row : Row) (cascade : Bool)
  | delete (table : String) (pos : Nat) (cascade : Bool)

/-- `row["_xmax"] = t`. -/
def endedBy (t : Nat) (row : Row) : Row :=
  row.set "_xmax" (stdToString t)

def cellText (row : Row) (col : String) : String :=
  (row.find col).getD ""

/-- The column whose text an `UPDATE` or `DELETE` logs as the key. -/
def logCol (schema : TableSchema) (cascade : Bool) : String :=
  if cascade then keyCol schema else pkCol (some schema)

/-- The new key that an `UPDATE` logs; a cascade logs none. -/
def logNewKey (schema : TableSchema) (cascade : Bool) (old image : Row) : String :=
  if cascade then ""
  else (image.find (pkCol (some schema))).getD (cellText old (logCol schema cascade))

namespace OpenTxn

def setRows (s : OpenTxn) (table : String) (rows : List Row) : Tables :=
  update s.tables table (some rows)

/-- The live row that a write finds at a position. -/
def target (catalog : Catalog) (s : OpenTxn) (table : String) (pos : Nat) :
    Option (TableSchema × List Row × Row) :=
  (catalog table).bind fun schema => (s.tables table).bind fun rows =>
    (rows[pos]?).bind fun old => if isVisible old then some (schema, rows, old) else none

end OpenTxn

/-- One row write, with its log entry. -/
def rowWriteStep (catalog : Catalog) (s : OpenTxn) : RowWrite → Option OpenTxn
  | .insert table row =>
    (catalog table).bind fun schema => (s.tables table).bind fun rows =>
      let image := row.tag s.txn.txnId
      if image.keys = tableCols schema then
        some ⟨s.setRows table (rows ++ [image]),
          s.txn.logInsert table (cellText image (keyCol schema)) image⟩
      else none
  | .update table pos row cascade =>
    (s.target catalog table pos).bind fun (schema, rows, old) =>
      let image := row.tag s.txn.txnId
      if image.keys = tableCols schema then
        some ⟨s.setRows table (rows.set pos (endedBy s.txn.txnId old) ++ [image]),
          s.txn.logUpdate table (cellText old (logCol schema cascade)) old image
            (logNewKey schema cascade old image)⟩
      else none
  | .delete table pos cascade =>
    (s.target catalog table pos).bind fun (schema, rows, old) =>
      some ⟨s.setRows table (rows.set pos (endedBy s.txn.txnId old)),
        s.txn.logDelete table (cellText old (logCol schema cascade)) old⟩

def createdBy (t : Nat) (row : Row) : Prop :=
  row.find "_xmin" = some (stdToString t)

instance (t : Nat) (row : Row) : Decidable (createdBy t row) :=
  inferInstanceAs (Decidable (row.find "_xmin" = _))

/-- The key under which undoing an `UPDATE` looks for the new version. -/
def tipKey (schema : TableSchema) (cascade : Bool) (old image : Row) : String :=
  let key := cellText old (logCol schema cascade)
  let newKey := logNewKey schema cascade old image
  if newKey = "" ∨ newKey = key then key else newKey

/-- The texts in the log entry of the write are those that undoing it compares. -/
def KeyFound (catalog : Catalog) (s : OpenTxn) : RowWrite → Prop
  | .insert table row => ∀ schema, catalog table = some schema →
      (row.tag s.txn.txnId).find (pkCol (some schema)) =
        some (cellText (row.tag s.txn.txnId) (keyCol schema))
  | .update table pos row cascade => ∀ schema rows old,
      s.target catalog table pos = some (schema, rows, old) →
        old.find (pkCol (some schema)) = some (cellText old (logCol schema cascade)) ∧
        (row.tag s.txn.txnId).find (pkCol (some schema)) =
          some (tipKey schema cascade old (row.tag s.txn.txnId))
  | .delete table pos cascade => ∀ schema rows old,
      s.target catalog table pos = some (schema, rows, old) →
        old.find (pkCol (some schema)) = some (cellText old (logCol schema cascade))

def OpenTxn.size (s : OpenTxn) (table : String) : Nat :=
  ((s.tables table).getD []).length

/-- The key of the write is not that of a version the transaction had made before the savepoint
`base`; for an `UPDATE` only the live ones count, without the one that it ends. -/
def Unshared (catalog : Catalog) (base s : OpenTxn) : RowWrite → Prop
  | .insert table row => ∀ schema rows, catalog table = some schema →
      s.tables table = some rows → ∀ r ∈ rows.take (base.size table), createdBy s.txn.txnId r →
        r.find (pkCol (some schema)) ≠ some (cellText (row.tag s.txn.txnId) (keyCol schema))
  | .update table pos row cascade => ∀ schema rows old,
      s.target catalog table pos = some (schema, rows, old) →
        ∀ r ∈ (rows.set pos (endedBy s.txn.txnId old)).take (base.size table),
          createdBy s.txn.txnId r → isVisible r →
            r.find (pkCol (some schema)) ≠ some (tipKey schema cascade old (row.tag s.txn.txnId))
  | .delete _ _ _ => True

/-- What a write does to the rows of its table, with its log entry. -/
inductive Change (t : Nat) (pk : String) (rows : List Row) (entry : UndoEntry) :
    List Row → Prop
  | insert (image : Row) (hop : entry.operation = .insert) (hmin : createdBy t image)
      (hkey : image.find pk = some entry.key) : Change t pk rows entry (rows ++ [image])
  | delete (pos : Nat) (old : Row) (hop : entry.operation = .delete)
      (hold : entry.oldData = some old) (hpos : rows[pos]? = some old)
      (hlive : old.find "_xmax" = some "0") (hkey : old.find pk = some entry.key) :
      Change t pk rows entry (rows.set pos (endedBy t old))
  | update (pos : Nat) (old image : Row) (hop : entry.operation = .update)
      (hold : entry.oldData = some old) (hpos : rows[pos]? = some old)
      (hlive : old.find "_xmax" = some "0") (hkey : old.find pk = some entry.key)
      (hmin : createdBy t image) (hmax : image.find "_xmax" = some "0")
      (htip : image.find pk = some (entry.newKey.getD entry.key)) :
      Change t pk rows entry (rows.set pos (endedBy t old) ++ [image])

def SameColumns (cols : Finset String) (rows : List Row) : Prop :=
  ∀ r ∈ rows, r.keys = cols

variable {row : Row}

theorem find_eq_none_iff {col : String} : row.find col = none ↔ col ∉ row.keys := by
  rw [Row.find, Finmap.lookup_eq_none, Finmap.mem_keys]

theorem keys_set_xmax (h : "_xmax" ∈ row.keys) (text : String) :
    (row.set "_xmax" text).keys = row.keys := by
  ext col
  have hiff : ∀ r : Row, col ∈ r.keys ↔ r.find col ≠ none := fun r => by
    rw [Ne, find_eq_none_iff, not_not]
  by_cases hcol : col = "_xmax"
  · subst hcol
    simp only [h, iff_true]
    rw [hiff, Row.find_set]
    simp
  · rw [hiff, hiff, Row.find_set_of_ne _ _ hcol]

variable {t : Nat} {pk : String} {entry : UndoEntry} {old : Row}

theorem endedMatch_iff (hpk : pk ≠ "_xmax") (hold : entry.oldData = some old)
    (hkey : old.find pk = some entry.key) (hcols : row.keys = old.keys) :
    endedMatch pk (stdToString t) entry row ↔ row = endedBy t old := by
  simp only [endedMatch, hold, Option.all_some, Bool.and_eq_true, decide_eq_true_eq, matchesImage]
  constructor
  · rintro ⟨⟨-, hmax⟩, hcells⟩
    apply Row.ext_find
    intro col
    by_cases hcol : col = "_xmax"
    · subst hcol
      rw [hmax, endedBy, Row.find_set]
    · rw [endedBy, Row.find_set_of_ne _ _ hcol]
      by_cases hin : col ∈ old.keys
      · exact (hcells col hin).resolve_left hcol
      · rw [find_eq_none_iff.mpr hin, find_eq_none_iff, hcols]
        exact hin
  · rintro rfl
    refine ⟨⟨?_, Row.find_set _ _ _⟩, fun col _ => ?_⟩
    · rw [endedBy, Row.find_set_of_ne _ _ hpk]
      exact hkey
    · by_cases hcol : col = "_xmax"
      · exact .inl hcol
      · exact .inr (Row.find_set_of_ne _ _ hcol)

theorem revived_endedBy (hlive : old.find "_xmax" = some "0") :
    (endedBy t old).set "_xmax" "0" = old := by
  rw [endedBy, Row.set_set]
  exact Row.set_eq_self hlive

variable {rows : List Row}

theorem reviveFirst_perm {accepts : Row → Bool} (hlive : old.find "_xmax" = some "0")
    (haccepts : ∀ r ∈ rows, accepts r ↔ r = endedBy t old) :
    (reviveFirst accepts rows).Perm
      (if endedBy t old ∈ rows then old :: rows.erase (endedBy t old) else rows) := by
  induction rows with
  | nil => exact List.Perm.refl _
  | cons row rows ih =>
    have ih := ih fun r hr => haccepts r (.tail _ hr)
    by_cases hrow : row = endedBy t old
    · have hyes : accepts row := (haccepts row List.mem_cons_self).mpr hrow
      rw [reviveFirst, if_pos hyes, if_pos (hrow ▸ List.mem_cons_self), hrow,
        revived_endedBy hlive, List.erase_cons_head]
    · have hno : accepts row ≠ true := fun h => hrow ((haccepts row List.mem_cons_self).mp h)
      rw [reviveFirst, if_neg hno]
      by_cases hin : endedBy t old ∈ rows
      · rw [if_pos hin] at ih
        rw [if_pos (.tail _ hin), List.erase_cons_tail (by simpa using hrow)]
        exact (ih.cons row).trans (List.Perm.swap old row _)
      · rw [if_neg hin] at ih
        have hnot : endedBy t old ∉ row :: rows := by
          simp only [List.mem_cons, not_or]
          exact ⟨fun h => hrow h.symm, hin⟩
        rw [if_neg hnot]
        exact ih.cons row

theorem ne_endedBy (ht : t ≠ 0) (hlive : old.find "_xmax" = some "0") : old ≠ endedBy t old := by
  intro h
  have hcell : old.find "_xmax" = some (stdToString t) := by
    rw [h, endedBy, Row.find_set]
  rw [hlive, Option.some.injEq] at hcell
  exact ht (stdToString_eq_zero_iff.mp hcell.symm)

theorem createdBy_endedBy {u : Nat} : createdBy t (endedBy u row) ↔ createdBy t row := by
  rw [createdBy, createdBy, endedBy, Row.find_set_of_ne _ _ (by decide)]

theorem isVisible_endedBy (ht : t ≠ 0) : isVisible (endedBy t row) = false := by
  simp only [isVisible, endedBy, Row.find_set, beq_eq_false_iff_ne, ne_eq]
  exact fun h => ht (stdToString_eq_zero_iff.mp h)

theorem isVisible_of_find (h : row.find "_xmax" = some "0") : isVisible row := by
  simp [isVisible, h]

variable {pos : Nat}

theorem count_set_of_getElem? (h : rows[pos]? = some old) (new r : Row) :
    (rows.set pos new).count r + (if old = r then 1 else 0) =
      rows.count r + (if new = r then 1 else 0) := by
  obtain ⟨hlt, hget⟩ := List.getElem?_eq_some_iff.mp h
  have hmem : old ∈ rows := List.mem_of_getElem? h
  rw [List.count_set hlt, hget]
  by_cases hold : old = r
  · subst hold
    have hpos : 0 < rows.count old := List.count_pos_iff.mpr hmem
    simp only [beq_self_eq_true, if_true, beq_iff_eq]
    omega
  · simp [hold]

theorem count_take_set (h : rows[pos]? = some old) (n : Nat) (new r : Row) :
    (((rows.set pos new).take n).count r + (if old = r then 1 else 0) =
      (rows.take n).count r + (if new = r then 1 else 0)) ∨
    (((rows.set pos new).take n).count r = (rows.take n).count r ∧
      (rows.take n).count r + (if new = r then 1 else 0) ≤ (rows.set pos new).count r) := by
  rw [List.take_set]
  by_cases hlt : pos < n
  · refine .inl (count_set_of_getElem? ?_ new r)
    rw [List.getElem?_take_of_lt hlt]
    exact h
  · obtain ⟨hpos, -⟩ := List.getElem?_eq_some_iff.mp h
    have hlen : (rows.take n).length ≤ pos := by
      rw [List.length_take]
      omega
    rw [List.set_eq_of_length_le hlen]
    refine .inr ⟨rfl, ?_⟩
    have hsplit : (rows.set pos new).count r =
        ((rows.set pos new).take n).count r + ((rows.set pos new).drop n).count r := by
      rw [← List.count_append, List.take_append_drop]
    rw [hsplit, List.take_set, List.set_eq_of_length_le hlen]
    refine Nat.add_le_add_left ?_ _
    split
    · rename_i hnew
      subst hnew
      refine List.count_pos_iff.mpr (List.mem_iff_getElem?.mpr ⟨pos - n, ?_⟩)
      rw [List.getElem?_drop, Nat.add_sub_of_le (by omega)]
      exact List.getElem?_set_self hpos
    · exact Nat.zero_le _

/-- The rows are those of the savepoint and those since; undoing leads back to the former. `keys`
are the keys of the inserts since the savepoint. -/
structure Restoring (t : Nat) (pk : String) (n : Nat) (keys : Set String) (rows undone : List Row) :
    Prop where
  foreign : ∀ r, ¬ createdBy t r → undone.count r = rows.count r
  ended : ∀ r, createdBy t r → isVisible r = false → (∀ k ∈ keys, r.find pk ≠ some k) →
    undone.count r = rows.count r
  le : ∀ r, undone.count r ≤ rows.count r
  kept : ∀ r, createdBy t r → (rows.take n).count r ≤ undone.count r

/-- The rows once the version that the write has ended is back. -/
def revived (t : Nat) (old : Row) (undone : List Row) : List Row :=
  if endedBy t old ∈ undone then old :: undone.erase (endedBy t old) else undone

variable {n : Nat} {keys : Set String} {undone : List Row} {r : Row}

theorem count_take_eq_zero
    (hsaved : ∀ r ∈ rows.take n, createdBy t r → ∀ k ∈ keys, r.find pk ≠ some k)
    (hr : createdBy t r) (hkeys : ∃ k ∈ keys, r.find pk = some k) : (rows.take n).count r = 0 := by
  obtain ⟨k, hk, hfind⟩ := hkeys
  exact List.count_eq_zero.mpr fun hin => hsaved r hin hr k hk hfind

namespace Restoring

theorem mem (h : Restoring t pk n keys rows undone) (hr : r ∈ undone) : r ∈ rows :=
  List.count_pos_iff.mp (lt_of_lt_of_le (List.count_pos_iff.mpr hr) (h.le r))

theorem of_perm {undone' : List Row} (h : Restoring t pk n keys rows undone)
    (hperm : undone'.Perm undone) : Restoring t pk n keys rows undone' := by
  refine ⟨?_, ?_, ?_, ?_⟩ <;> intro r
  · rw [hperm.count_eq]
    exact h.foreign r
  · rw [hperm.count_eq]
    exact h.ended r
  · rw [hperm.count_eq]
    exact h.le r
  · rw [hperm.count_eq]
    exact h.kept r

theorem perm (h : Restoring t pk n keys rows undone) (hn : rows.length ≤ n) : undone.Perm rows := by
  refine List.perm_iff_count.mpr fun r => ?_
  by_cases hr : createdBy t r
  · have hkept := h.kept r hr
    rw [List.take_of_length_le hn] at hkept
    exact le_antisymm (h.le r) hkept
  · exact h.foreign r hr

/-- Erasing the appended version, together with others that the savepoint does not have. -/
theorem erase_appended {image : Row} {erases : Row → Bool}
    (h : Restoring t pk n keys (rows ++ [image]) undone) (hn : n ≤ rows.length)
    (himage : erases image) (hcreated : ∀ r, erases r → createdBy t r)
    (hended : ∀ r, erases r → isVisible r = false → ∃ k ∈ keys, r.find pk = some k)
    (hsaved : ∀ r ∈ rows.take n, erases r = false) :
    Restoring t pk n keys rows (undone.filter fun r => !erases r) := by
  have htake : (rows ++ [image]).take n = rows.take n := List.take_append_of_le_length hn
  have herased : ∀ r, erases r → (undone.filter fun r => !erases r).count r = 0 := by
    intro r hr
    rw [List.count_eq_zero]
    intro hin
    have := (List.mem_filter.mp hin).2
    simp [hr] at this
  have hkeep : ∀ r, erases r = false → (undone.filter fun r => !erases r).count r = undone.count r ∧
      (rows ++ [image]).count r = rows.count r := by
    intro r hr
    have hne : image ≠ r := fun e => by rw [e, hr] at himage; cases himage
    refine ⟨List.count_filter (by simp [hr]), ?_⟩
    rw [List.count_append, List.count_singleton]
    simp [hne]
  refine ⟨fun r hr => ?_, fun r hr hdead hkeys => ?_, fun r => ?_, fun r hr => ?_⟩
  · have hno : erases r = false := by simpa using fun h => hr (hcreated r h)
    rw [(hkeep r hno).1, h.foreign r hr, (hkeep r hno).2]
  · have hno : erases r = false := by
      rw [Bool.eq_false_iff]
      intro hyes
      obtain ⟨k, hk, hfind⟩ := hended r hyes hdead
      exact hkeys k hk hfind
    rw [(hkeep r hno).1, h.ended r hr hdead hkeys, (hkeep r hno).2]
  · by_cases hyes : erases r = true
    · rw [herased r hyes]
      exact Nat.zero_le _
    · have hno : erases r = false := by simpa using hyes
      rw [(hkeep r hno).1, ← (hkeep r hno).2]
      exact h.le r
  · by_cases hyes : erases r = true
    · rw [List.count_eq_zero.mpr fun hin => ?_]
      · exact Nat.zero_le _
      · have := hsaved r hin
        rw [hyes] at this
        cases this
    · have hno : erases r = false := by simpa using hyes
      rw [(hkeep r hno).1, ← htake]
      exact h.kept r hr

section

variable (h : Restoring t pk n keys (rows.set pos (endedBy t old)) undone) (ht : t ≠ 0)
  (hpos : rows[pos]? = some old) (hlive : old.find "_xmax" = some "0")
include h ht hpos hlive

/-- The ended version is gone only where the transaction created it under the key of an insert. -/
theorem hasKey_of_notMem (hin : endedBy t old ∉ undone) :
    createdBy t (endedBy t old) ∧ ∃ k ∈ keys, (endedBy t old).find pk = some k := by
  have habsent : undone.count (endedBy t old) = 0 := List.count_eq_zero.mpr hin
  have hthere := count_set_of_getElem? hpos (endedBy t old) (endedBy t old)
  rw [if_neg (ne_endedBy ht hlive), if_pos rfl] at hthere
  have hcreated : createdBy t (endedBy t old) := by
    by_contra hforeign
    have hsame := h.foreign _ hforeign
    omega
  refine ⟨hcreated, ?_⟩
  by_contra hnone
  have hsame := h.ended _ hcreated (isVisible_endedBy ht) fun k hk hfind => hnone ⟨k, hk, hfind⟩
  omega

variable (hsaved : ∀ r ∈ rows.take n, createdBy t r → ∀ k ∈ keys, r.find pk ≠ some k)
include hsaved

theorem revive_of_mem (hin : endedBy t old ∈ undone) :
    Restoring t pk n keys rows (old :: undone.erase (endedBy t old)) := by
  have hall := count_set_of_getElem? hpos (endedBy t old)
  have hundone : ∀ r, (old :: undone.erase (endedBy t old)).count r +
      (if endedBy t old = r then 1 else 0) = undone.count r + (if old = r then 1 else 0) := by
    intro r
    rw [List.count_cons, List.count_erase]
    have hpositive : 0 < undone.count (endedBy t old) := List.count_pos_iff.mpr hin
    by_cases hr : endedBy t old = r
    · subst hr
      simp only [beq_self_eq_true, beq_iff_eq, if_true, ne_endedBy ht hlive, if_false]
      omega
    · simp [hr]
  refine ⟨fun r hr => ?_, fun r hr hdead hkeys => ?_, fun r => ?_, fun r hr => ?_⟩
  · have hsame := h.foreign r hr
    have hall := hall r
    have hundone := hundone r
    omega
  · have hsame := h.ended r hr hdead hkeys
    have hall := hall r
    have hundone := hundone r
    omega
  · have hle := h.le r
    have hall := hall r
    have hundone := hundone r
    omega
  · have hkept := h.kept r hr
    have hundone := hundone r
    rcases count_take_set hpos n (endedBy t old) r with htake | ⟨htake, hmore⟩
    · omega
    · by_cases hkeys : ∃ k ∈ keys, r.find pk = some k
      · rw [count_take_eq_zero hsaved hr hkeys]
        exact Nat.zero_le _
      · by_cases hr' : endedBy t old = r
        · have hdead : isVisible r = false := hr' ▸ isVisible_endedBy ht
          have hsame := h.ended r hr hdead fun k hk hfind => hkeys ⟨k, hk, hfind⟩
          omega
        · rw [if_neg hr'] at hundone
          omega

theorem revive_of_notMem (hpk : pk ≠ "_xmax") (hin : endedBy t old ∉ undone) :
    Restoring t pk n keys rows undone := by
  obtain ⟨hcreated, hkeys⟩ := hasKey_of_notMem h ht hpos hlive hin
  have hkeys' : ∃ k ∈ keys, old.find pk = some k := by
    rwa [endedBy, Row.find_set_of_ne _ _ hpk] at hkeys
  have hne : ∀ r, ¬ createdBy t r → old ≠ r ∧ endedBy t old ≠ r := fun r hr =>
    ⟨fun e => hr (e ▸ createdBy_endedBy.mp hcreated), fun e => hr (e ▸ hcreated)⟩
  have hall := count_set_of_getElem? hpos (endedBy t old)
  refine ⟨fun r hr => ?_, fun r hr hdead hfree => ?_, fun r => ?_, fun r hr => ?_⟩
  · have hall := hall r
    rw [if_neg (hne r hr).1, if_neg (hne r hr).2] at hall
    have hsame := h.foreign r hr
    omega
  · obtain ⟨k, hk, hfind⟩ := hkeys
    have hold : old ≠ r := by
      rintro rfl
      rw [isVisible_of_find hlive] at hdead
      cases hdead
    have hended : endedBy t old ≠ r := fun e => hfree k hk (e ▸ hfind)
    have hall := hall r
    rw [if_neg hold, if_neg hended] at hall
    have hsame := h.ended r hr hdead hfree
    omega
  · have hall := hall r
    have hle := h.le r
    by_cases hr : endedBy t old = r
    · rw [← hr, List.count_eq_zero.mpr hin]
      exact Nat.zero_le _
    · rw [if_neg hr] at hall
      omega
  · have hkept := h.kept r hr
    by_cases hold : old = r
    · rw [count_take_eq_zero hsaved hr (hold ▸ hkeys')]
      exact Nat.zero_le _
    · by_cases hended : endedBy t old = r
      · rw [count_take_eq_zero hsaved hr (hended ▸ hkeys)]
        exact Nat.zero_le _
      · have htake := count_take_set hpos n (endedBy t old) r
        rw [if_neg hold, if_neg hended] at htake
        omega

theorem revive (hpk : pk ≠ "_xmax") : Restoring t pk n keys rows (revived t old undone) := by
  rw [revived]
  split
  · exact revive_of_mem h ht hpos hlive hsaved ‹_›
  · exact revive_of_notMem h ht hpos hlive hsaved hpk ‹_›

end

end Restoring

/-- The write has the key of a version of the savepoint that undoing the write erases. -/
def Clash (t : Nat) (pk : String) (n : Nat) (entry : UndoEntry) (rows : List Row) : Prop :=
  match entry.operation with
  | .insert => ∃ r ∈ rows.take n, createdBy t r ∧ r.find pk = some entry.key
  | .update => ∃ r ∈ rows.take n, createdBy t r ∧ isVisible r ∧
      r.find pk = some (entry.newKey.getD entry.key)
  | .delete => False

variable {cols : Finset String}

theorem keys_of_mem_set (hpos : rows[pos]? = some old) (hlive : old.find "_xmax" = some "0")
    (hcols : SameColumns cols (rows.set pos (endedBy t old))) : old.keys = cols := by
  obtain ⟨hlt, -⟩ := List.getElem?_eq_some_iff.mp hpos
  have hmem : endedBy t old ∈ rows.set pos (endedBy t old) :=
    List.mem_of_getElem? (List.getElem?_set_self hlt)
  have hin : "_xmax" ∈ old.keys := by
    by_contra hnot
    rw [find_eq_none_iff.mpr hnot] at hlive
    cases hlive
  rw [← keys_set_xmax hin]
  exact hcols _ hmem

variable {rows' : List Row}

theorem SameColumns.of_append (h : SameColumns cols (rows ++ rows')) : SameColumns cols rows :=
  fun r hr => h r (List.mem_append_left _ hr)

theorem reviveFirst_endedMatch (hpk : pk ≠ "_xmax") (hold : entry.oldData = some old)
    (hlive : old.find "_xmax" = some "0") (hkey : old.find pk = some entry.key)
    (hkeys : old.keys = cols) (hundone : SameColumns cols undone) :
    (reviveFirst (endedMatch pk (stdToString t) entry) undone).Perm (revived t old undone) :=
  reviveFirst_perm hlive fun r hr => endedMatch_iff hpk hold hkey ((hundone r hr).trans hkeys.symm)

/-- The versions that undoing an `INSERT` erases. -/
def insertErases (t : Nat) (pk : String) (entry : UndoEntry) (r : Row) : Bool :=
  decide (r.find pk = some entry.key) && decide (r.find "_xmin" = some (stdToString t))

/-- The versions that undoing an `UPDATE` erases. -/
def tipErases (t : Nat) (pk : String) (entry : UndoEntry) (r : Row) : Bool :=
  decide (r.find pk = some (entry.newKey.getD entry.key)) &&
    decide (r.find "_xmin" = some (stdToString t)) && decide (r.find "_xmax" = some "0")

theorem insertErases_iff :
    insertErases t pk entry r ↔ r.find pk = some entry.key ∧ createdBy t r := by
  simp only [insertErases, Bool.and_eq_true, decide_eq_true_eq, createdBy]

theorem tipErases_iff :
    tipErases t pk entry r ↔ (r.find pk = some (entry.newKey.getD entry.key) ∧
      createdBy t r) ∧ r.find "_xmax" = some "0" := by
  simp only [tipErases, Bool.and_eq_true, decide_eq_true_eq, createdBy]

/-- One entry is undone. -/
theorem Restoring.undo (ht : t ≠ 0) (hpk : pk ≠ "_xmax") (hn : n ≤ rows.length)
    (hchange : Change t pk rows entry rows') (hcols : SameColumns cols rows')
    (hkeys : entry.operation = .insert → entry.key ∈ keys)
    (hsaved : ∀ r ∈ rows.take n, createdBy t r → ∀ k ∈ keys, r.find pk ≠ some k)
    (hclash : ¬ Clash t pk n entry rows') (h : Restoring t pk n keys rows' undone) :
    Restoring t pk n keys rows (undoEntryRows pk (stdToString t) entry undone) := by
  cases hchange with
  | insert image hop hmin hkey =>
    simp only [undoEntryRows, hop]
    refine h.erase_appended hn (insertErases_iff.mpr ⟨hkey, hmin⟩) ?_ ?_ ?_
    · exact fun r hr => (insertErases_iff.mp hr).2
    · exact fun r hr _ => ⟨entry.key, hkeys hop, (insertErases_iff.mp hr).1⟩
    · intro r hr
      rw [Bool.eq_false_iff]
      intro herase
      obtain ⟨hfind, hcreated⟩ := insertErases_iff.mp herase
      exact hsaved r hr hcreated entry.key (hkeys hop) hfind
  | delete pos old hop hold hpos hlive hkey =>
    simp only [undoEntryRows, hop]
    refine (h.revive ht hpos hlive hsaved hpk).of_perm ?_
    exact reviveFirst_endedMatch hpk hold hlive hkey (keys_of_mem_set hpos hlive hcols)
      fun r hr => hcols r (h.mem hr)
  | update pos old image hop hold hpos hlive hkey hmin hmax htip =>
    simp only [undoEntryRows, hop, hold, Option.isNone_some, Bool.false_eq_true, if_false]
    have hn' : n ≤ (rows.set pos (endedBy t old)).length := by
      rw [List.length_set]
      exact hn
    have herased : Restoring t pk n keys (rows.set pos (endedBy t old))
        (undone.filter fun r => !tipErases t pk entry r) := by
      refine h.erase_appended hn' (tipErases_iff.mpr ⟨⟨htip, hmin⟩, hmax⟩) ?_ ?_ ?_
      · exact fun r hr => (tipErases_iff.mp hr).1.2
      · intro r hr hdead
        rw [isVisible_of_find (tipErases_iff.mp hr).2] at hdead
        cases hdead
      · intro r hr
        rw [Bool.eq_false_iff]
        intro herase
        obtain ⟨⟨hfind, hcreated⟩, hzero⟩ := tipErases_iff.mp herase
        refine hclash ?_
        simp only [Clash, hop]
        refine ⟨r, ?_, hcreated, isVisible_of_find hzero, hfind⟩
        rw [List.take_append_of_le_length hn']
        exact hr
    refine (herased.revive ht hpos hlive hsaved hpk).of_perm ?_
    refine reviveFirst_endedMatch hpk hold hlive hkey
      (keys_of_mem_set hpos hlive hcols.of_append) fun r hr => ?_
    exact hcols r (h.mem (List.mem_of_mem_filter hr))

def liveOwn (t : Nat) (pk key : String) (r : Row) : Bool :=
  decide (r.find pk = some key) && decide (createdBy t r) && isVisible r

theorem liveOwn_iff {key : String} :
    liveOwn t pk key r ↔ (r.find pk = some key ∧ createdBy t r) ∧ isVisible r := by
  simp only [liveOwn, Bool.and_eq_true, decide_eq_true_eq]

/-- A version of the savepoint is lost: under some key the undone rows have none that the
transaction created, or too few live ones. -/
inductive Lost (t : Nat) (pk : String) (n : Nat) (rows undone : List Row) : Prop
  | all (key : String) (hrow : ∃ r ∈ rows.take n, createdBy t r ∧ r.find pk = some key)
      (hnone : ∀ r ∈ undone, createdBy t r → r.find pk ≠ some key)
  | live (key : String) (hrow : ∃ r ∈ rows.take n, liveOwn t pk key r)
      (hless : undone.countP (liveOwn t pk key) < rows.countP (liveOwn t pk key))

theorem Lost.not_perm (h : Lost t pk n rows undone) : ¬ undone.Perm rows := by
  intro hperm
  cases h with
  | all key hrow hnone =>
    obtain ⟨r, hr, hcreated, hkey⟩ := hrow
    exact hnone r (hperm.mem_iff.mpr (List.mem_of_mem_take hr)) hcreated hkey
  | live key hrow hless =>
    rw [hperm.countP_eq] at hless
    exact lt_irrefl _ hless

theorem liveOwn_endedBy {key : String} (ht : t ≠ 0) : liveOwn t pk key (endedBy t old) = false := by
  simp [liveOwn, isVisible_endedBy ht]

theorem countP_set_ended (ht : t ≠ 0) (hpos : rows[pos]? = some old) (pk key : String) :
    (rows.set pos (endedBy t old)).countP (liveOwn t pk key) +
      (if liveOwn t pk key old then 1 else 0) = rows.countP (liveOwn t pk key) := by
  obtain ⟨hlt, hget⟩ := List.getElem?_eq_some_iff.mp hpos
  rw [List.countP_set hlt, hget, liveOwn_endedBy ht]
  by_cases hold : liveOwn t pk key old = true
  · have hpositive : 0 < rows.countP (liveOwn t pk key) :=
      List.countP_pos_iff.mpr ⟨old, List.mem_of_getElem? hpos, hold⟩
    simp only [hold, if_true, Bool.false_eq_true, if_false]
    omega
  · simp [hold]

theorem countP_revive_le {rows : List Row} (hperm : rows.Perm (revived t old undone))
    (pk key : String) : rows.countP (liveOwn t pk key) ≤
      undone.countP (liveOwn t pk key) + (if liveOwn t pk key old then 1 else 0) := by
  rw [hperm.countP_eq, revived]
  split
  · rw [List.countP_cons]
    exact Nat.add_le_add_right (List.Sublist.countP_le List.erase_sublist) _
  · exact Nat.le_add_right _ _

theorem mem_take_set {r' : Row} (hpos : rows[pos]? = some old)
    (hr' : r' ∈ (rows.set pos (endedBy t old)).take n) :
    r' ∈ rows.take n ∨ ∃ r ∈ rows.take n, r' = endedBy t r := by
  rw [List.take_set] at hr'
  by_cases hlt : pos < n
  · rcases List.mem_or_eq_of_mem_set hr' with hin | rfl
    · exact .inl hin
    · refine .inr ⟨old, List.mem_of_getElem? (i := pos) ?_, rfl⟩
      rw [List.getElem?_take_of_lt hlt]
      exact hpos
  · have hlen : (rows.take n).length ≤ pos := by
      rw [List.length_take]
      omega
    rw [List.set_eq_of_length_le hlen] at hr'
    exact .inl hr'

theorem Change.mem_take (hn : n ≤ rows.length) (h : Change t pk rows entry rows') {r' : Row}
    (hr' : r' ∈ rows'.take n) : r' ∈ rows.take n ∨ ∃ r ∈ rows.take n, r' = endedBy t r := by
  cases h with
  | insert image hop hmin hkey =>
    rw [List.take_append_of_le_length hn] at hr'
    exact .inl hr'
  | delete pos old hop hold hpos hlive hkey => exact mem_take_set hpos hr'
  | update pos old image hop hold hpos hlive hkey hmin hmax htip =>
    rw [List.take_append_of_le_length (by rw [List.length_set]; exact hn)] at hr'
    exact mem_take_set hpos hr'

theorem Change.take_live (ht : t ≠ 0) (hn : n ≤ rows.length) (h : Change t pk rows entry rows')
    {key : String} (hrow : ∃ r ∈ rows'.take n, liveOwn t pk key r) :
    ∃ r ∈ rows.take n, liveOwn t pk key r := by
  obtain ⟨r, hr, hlive⟩ := hrow
  rcases h.mem_take hn hr with hin | ⟨r₀, hin, rfl⟩
  · exact ⟨r, hin, hlive⟩
  · rw [liveOwn_endedBy ht] at hlive
    cases hlive

/-- Undoing an `UPDATE` under a key of which another live version of the savepoint is there. -/
theorem countP_lt_of_tip {image : Row} (ht : t ≠ 0) (hn : n ≤ rows.length)
    (hpos : rows[pos]? = some old)
    (hperm : rows'.Perm (revived t old (undone.filter fun r => !tipErases t pk entry r)))
    (hcells : ∀ r ∈ undone, isVisible r → r.find "_xmax" = some "0")
    (hrow : ∃ r ∈ (rows.set pos (endedBy t old) ++ [image]).take n,
      liveOwn t pk (entry.newKey.getD entry.key) r) :
    rows'.countP (liveOwn t pk (entry.newKey.getD entry.key)) <
      rows.countP (liveOwn t pk (entry.newKey.getD entry.key)) := by
  have hle := countP_revive_le hperm pk (entry.newKey.getD entry.key)
  have hzero : (undone.filter fun r => !tipErases t pk entry r).countP
      (liveOwn t pk (entry.newKey.getD entry.key)) = 0 := by
    rw [List.countP_eq_zero]
    intro r hr hlive
    obtain ⟨hr, hkeep⟩ := List.mem_filter.mp hr
    obtain ⟨hown, hvisible⟩ := liveOwn_iff.mp hlive
    have herase : tipErases t pk entry r :=
      tipErases_iff.mpr ⟨hown, hcells r hr hvisible⟩
    simp [herase] at hkeep
  have hset := countP_set_ended ht hpos pk (entry.newKey.getD entry.key)
  have hpositive : 0 < (rows.set pos (endedBy t old)).countP
      (liveOwn t pk (entry.newKey.getD entry.key)) := by
    obtain ⟨r, hr, hlive⟩ := hrow
    rw [List.take_append_of_le_length (by rw [List.length_set]; exact hn)] at hr
    exact List.countP_pos_iff.mpr ⟨r, List.mem_of_mem_take hr, hlive⟩
  omega

theorem mem_reviveFirst {accepts : Row → Bool} (h : r ∈ reviveFirst accepts rows) :
    r ∈ rows ∨ ∃ r₀ ∈ rows, r = r₀.set "_xmax" "0" := by
  induction rows with
  | nil => exact .inl h
  | cons row rows ih =>
    rw [reviveFirst] at h
    split at h
    · rcases List.mem_cons.mp h with h | h
      · exact .inr ⟨row, List.mem_cons_self, h⟩
      · exact .inl (.tail _ h)
    · rcases List.mem_cons.mp h with h | h
      · exact .inl (h ▸ List.mem_cons_self)
      · rcases ih h with h | ⟨r₀, h₀, h⟩
        · exact .inl (.tail _ h)
        · exact .inr ⟨r₀, List.mem_cons_of_mem _ h₀, h⟩

theorem SameColumns.filter (h : SameColumns cols rows) (p : Row → Bool) :
    SameColumns cols (rows.filter p) :=
  fun r hr => h r (List.mem_of_mem_filter hr)

theorem SameColumns.reviveFirst (h : SameColumns cols rows) (hmax : "_xmax" ∈ cols)
    (accepts : Row → Bool) : SameColumns cols (RusqlEngine.reviveFirst accepts rows) := by
  intro r hr
  rcases mem_reviveFirst hr with hr | ⟨r₀, h₀, rfl⟩
  · exact h r hr
  · rw [keys_set_xmax (by rw [h r₀ h₀]; exact hmax), h r₀ h₀]

theorem SameColumns.undoEntryRows (h : SameColumns cols rows) (hmax : "_xmax" ∈ cols)
    (pk txnIdStr : String) (entry : UndoEntry) :
    SameColumns cols (RusqlEngine.undoEntryRows pk txnIdStr entry rows) := by
  unfold RusqlEngine.undoEntryRows
  split
  · exact h.filter _
  · split
    · exact h
    · exact (h.filter _).reviveFirst hmax _
  · exact h.reviveFirst hmax _

theorem SameColumns.find_xmax (h : SameColumns cols rows) (hmax : "_xmax" ∈ cols) (hr : r ∈ rows)
    (hlive : isVisible r) : r.find "_xmax" = some "0" := by
  cases hcell : r.find "_xmax" with
  | none =>
    rw [find_eq_none_iff, h r hr] at hcell
    exact absurd hmax hcell
  | some text =>
    simp only [isVisible, hcell, beq_iff_eq] at hlive
    rw [hlive]

theorem countP_append_of_not {p : Row → Bool} {image : Row} (h : p image = false) :
    (rows ++ [image]).countP p = rows.countP p := by
  simp [List.countP_append, h]

theorem Lost.undo (ht : t ≠ 0) (hpk : pk ≠ "_xmax") (hn : n ≤ rows.length)
    (hchange : Change t pk rows entry rows') (hcols : SameColumns cols rows')
    (hundone : SameColumns cols undone) (hmax : "_xmax" ∈ cols) (h : Lost t pk n rows' undone) :
    Lost t pk n rows (undoEntryRows pk (stdToString t) entry undone) := by
  cases h with
  | all key hrow hnone =>
    obtain ⟨r, hr, hcreated, hkey⟩ := hrow
    refine Lost.all key ?_ ?_
    · rcases hchange.mem_take hn hr with hin | ⟨r₀, hin, rfl⟩
      · exact ⟨r, hin, hcreated, hkey⟩
      · rw [endedBy, Row.find_set_of_ne _ _ hpk] at hkey
        exact ⟨r₀, hin, createdBy_endedBy.mp hcreated, hkey⟩
    · have hrevived : ∀ {accepts : Row → Bool} {l : List Row}, (∀ r ∈ l, r ∈ undone) →
          ∀ r ∈ reviveFirst accepts l, createdBy t r → r.find pk ≠ some key := by
        intro accepts l hl r hr hcreated
        rcases mem_reviveFirst hr with hr | ⟨r₀, h₀, rfl⟩
        · exact hnone r (hl r hr) hcreated
        · rw [createdBy, Row.find_set_of_ne _ _ (by decide)] at hcreated
          rw [Row.find_set_of_ne _ _ hpk]
          exact hnone r₀ (hl r₀ h₀) hcreated
      intro r hr
      unfold undoEntryRows at hr
      split at hr
      · exact hnone r (List.mem_of_mem_filter hr)
      · split at hr
        · exact hnone r hr
        · exact hrevived (fun r hr => List.mem_of_mem_filter hr) r hr
      · exact hrevived (fun r hr => hr) r hr
  | live key hrow hless =>
    have hrow' := hchange.take_live ht hn hrow
    refine Lost.live key hrow' ?_
    have hfilter : ∀ p : Row → Bool, (undone.filter p).countP (liveOwn t pk key) ≤
        undone.countP (liveOwn t pk key) :=
      fun p => List.Sublist.countP_le List.filter_sublist
    cases hchange with
    | insert image hop hmin hkey =>
      simp only [undoEntryRows, hop]
      by_cases hsame : entry.key = key
      · rw [List.countP_eq_zero.mpr]
        · obtain ⟨r, hr, hlive⟩ := hrow'
          exact List.countP_pos_iff.mpr ⟨r, List.mem_of_mem_take hr, hlive⟩
        · intro r hr hlive
          obtain ⟨⟨hfind, hcreated⟩, -⟩ := liveOwn_iff.mp hlive
          have hkeep := (List.mem_filter.mp hr).2
          rw [createdBy] at hcreated
          simp [hfind, hcreated, hsame] at hkeep
      · have hother : liveOwn t pk key image = false := by
          simp [liveOwn, hkey, hsame]
        rw [countP_append_of_not hother] at hless
        exact lt_of_le_of_lt (hfilter _) hless
    | delete pos old hop hold hpos hlive hkey =>
      simp only [undoEntryRows, hop]
      have hperm := reviveFirst_endedMatch (t := t) hpk hold hlive hkey
        (keys_of_mem_set hpos hlive hcols) hundone
      have hle := countP_revive_le hperm pk key
      have hset := countP_set_ended ht hpos pk key
      omega
    | update pos old image hop hold hpos hlive hkey hmin hmax' htip =>
      simp only [undoEntryRows, hop, hold, Option.isNone_some, Bool.false_eq_true, if_false]
      have hperm := reviveFirst_endedMatch (t := t) hpk hold hlive hkey
        (keys_of_mem_set hpos hlive hcols.of_append)
        (hundone.filter fun r => !tipErases t pk entry r)
      by_cases hsame : entry.newKey.getD entry.key = key
      · subst hsame
        exact countP_lt_of_tip ht hn hpos hperm (fun r hr => hundone.find_xmax hmax hr) hrow
      · have hother : liveOwn t pk key image = false := by
          simp [liveOwn, htip, hsame]
        rw [countP_append_of_not hother] at hless
        have hle := countP_revive_le hperm pk key
        have hset := countP_set_ended ht hpos pk key
        have hfilter := hfilter fun r => !tipErases t pk entry r
        exact lt_of_le_of_lt (hle.trans (Nat.add_le_add_right hfilter _))
          (by omega)

theorem lost_of_clash (ht : t ≠ 0) (hpk : pk ≠ "_xmax") (hn : n ≤ rows.length)
    (hchange : Change t pk rows entry rows') (hcols : SameColumns cols rows')
    (hundone : SameColumns cols undone) (hmax : "_xmax" ∈ cols)
    (hclash : Clash t pk n entry rows') :
    Lost t pk n rows (undoEntryRows pk (stdToString t) entry undone) := by
  cases hchange with
  | insert image hop hmin hkey =>
    simp only [Clash, hop] at hclash
    rw [List.take_append_of_le_length hn] at hclash
    refine Lost.all entry.key hclash fun r hr hcreated hfind => ?_
    simp only [undoEntryRows, hop] at hr
    have hkeep := (List.mem_filter.mp hr).2
    rw [createdBy] at hcreated
    simp [hfind, hcreated] at hkeep
  | delete pos old hop hold hpos hlive hkey =>
    simp only [Clash, hop] at hclash
  | update pos old image hop hold hpos hlive hkey hmin hmax' htip =>
    simp only [Clash, hop] at hclash
    obtain ⟨r, hr, hcreated, hvisible, hfind⟩ := hclash
    have hrow : ∃ r ∈ (rows.set pos (endedBy t old) ++ [image]).take n,
        liveOwn t pk (entry.newKey.getD entry.key) r :=
      ⟨r, hr, liveOwn_iff.mpr ⟨⟨hfind, hcreated⟩, hvisible⟩⟩
    refine Lost.live _ (Change.take_live ht hn
      (.update pos old image hop hold hpos hlive hkey hmin hmax' htip) hrow) ?_
    simp only [undoEntryRows, hop, hold, Option.isNone_some, Bool.false_eq_true, if_false]
    have hperm := reviveFirst_endedMatch (t := t) hpk hold hlive hkey
      (keys_of_mem_set hpos hlive hcols.of_append)
      (hundone.filter fun r => !tipErases t pk entry r)
    exact countP_lt_of_tip ht hn hpos hperm (fun r hr => hundone.find_xmax hmax hr) hrow

/-- The writes of one table: each entry with the rows after it. -/
def Trace (t : Nat) (pk : String) (cols : Finset String) :
    List Row → List (UndoEntry × List Row) → Prop
  | _, [] => True
  | rows, x :: trace => Change t pk rows x.1 x.2 ∧ SameColumns cols x.2 ∧ Trace t pk cols x.2 trace

def finalRows : List Row → List (UndoEntry × List Row) → List Row
  | rows, [] => rows
  | _, x :: trace => finalRows x.2 trace

/-- The entries of a table undone, the last one first. -/
def undoTrace (pk txnIdStr : String) (trace : List (UndoEntry × List Row))
    (rows : List Row) : List Row :=
  trace.foldr (fun x undone => undoEntryRows pk txnIdStr x.1 undone) rows

theorem Change.length_le (h : Change t pk rows entry rows') : rows.length ≤ rows'.length := by
  cases h <;> simp

theorem Change.exists_take (hn : n ≤ rows.length) (h : Change t pk rows entry rows')
    (hr : r ∈ rows.take n) : r ∈ rows'.take n ∨ endedBy t r ∈ rows'.take n := by
  have hset : ∀ {pos : Nat} {old : Row}, rows[pos]? = some old →
      r ∈ (rows.set pos (endedBy t old)).take n ∨
        endedBy t r ∈ (rows.set pos (endedBy t old)).take n := by
    intro pos old hpos
    obtain ⟨i, hi⟩ := List.mem_iff_getElem?.mp hr
    have hlt : i < n := by
      obtain ⟨hi, -⟩ := List.getElem?_eq_some_iff.mp hi
      rw [List.length_take] at hi
      omega
    rw [List.getElem?_take_of_lt hlt] at hi
    by_cases hip : pos = i
    · subst hip
      obtain rfl := Option.some.inj (hpos.symm.trans hi)
      refine .inr (List.mem_of_getElem? (i := pos) ?_)
      rw [List.getElem?_take_of_lt hlt]
      exact List.getElem?_set_self (List.getElem?_eq_some_iff.mp hpos).1
    · refine .inl (List.mem_of_getElem? (i := i) ?_)
      rw [List.getElem?_take_of_lt hlt, List.getElem?_set_ne hip]
      exact hi
  cases h with
  | insert image hop hmin hkey =>
    rw [List.take_append_of_le_length hn]
    exact .inl hr
  | delete pos old hop hold hpos hlive hkey => exact hset hpos
  | update pos old image hop hold hpos hlive hkey hmin hmax htip =>
    rw [List.take_append_of_le_length (by rw [List.length_set]; exact hn)]
    exact hset hpos

/-- Without a clash no insert has the key of a version of the savepoint. -/
theorem Trace.saved (hpk : pk ≠ "_xmax") :
    ∀ {rows : List Row} {trace : List (UndoEntry × List Row)}, Trace t pk cols rows trace →
      n ≤ rows.length → (∀ x ∈ trace, ¬ Clash t pk n x.1 x.2) →
      ∀ x ∈ trace, x.1.operation = .insert → ∀ r ∈ rows.take n, createdBy t r →
        r.find pk ≠ some x.1.key
  | rows, y :: trace, ⟨hchange, _, htrace⟩, hn, hclash, x, hx, hop, r, hr, hcreated => by
      have hended : createdBy t (endedBy t r) ∧ (endedBy t r).find pk = r.find pk :=
        ⟨createdBy_endedBy.mpr hcreated, by rw [endedBy, Row.find_set_of_ne _ _ hpk]⟩
      rcases List.mem_cons.mp hx with rfl | hx
      · intro hkey
        refine hclash x List.mem_cons_self ?_
        simp only [Clash, hop]
        rcases hchange.exists_take hn hr with hin | hin
        · exact ⟨r, hin, hcreated, hkey⟩
        · exact ⟨_, hin, hended.1, hended.2.trans hkey⟩
      · have ih := htrace.saved hpk (hn.trans hchange.length_le)
          (fun x hx => hclash x (.tail _ hx)) x hx hop
        rcases hchange.exists_take hn hr with hin | hin
        · exact ih r hin hcreated
        · rw [← hended.2]
          exact ih _ hin hended.1

/-- Undoing the writes of a table one by one. -/
theorem Trace.restoring (ht : t ≠ 0) (hpk : pk ≠ "_xmax") :
    ∀ {rows : List Row} {trace : List (UndoEntry × List Row)}, Trace t pk cols rows trace →
      n ≤ rows.length → (∀ x ∈ trace, ¬ Clash t pk n x.1 x.2) →
      (∀ x ∈ trace, x.1.operation = .insert → x.1.key ∈ keys) →
      (∀ r ∈ rows.take n, createdBy t r → ∀ k ∈ keys, r.find pk ≠ some k) →
      Restoring t pk n keys rows (undoTrace pk (stdToString t) trace (finalRows rows trace))
  | rows, [], _, _, _, _, _ => by
      refine ⟨fun _ _ => rfl, fun _ _ _ _ => rfl, fun _ => le_rfl, fun r _ => ?_⟩
      exact List.Sublist.count_le _ (List.take_sublist _ _)
  | rows, x :: trace, ⟨hchange, hcols, htrace⟩, hn, hclash, hkeys, hsaved => by
      have hsaved' : ∀ r ∈ x.2.take n, createdBy t r → ∀ k ∈ keys, r.find pk ≠ some k := by
        intro r hr hcreated
        rcases hchange.mem_take hn hr with hin | ⟨r₀, hin, rfl⟩
        · exact hsaved r hin hcreated
        · rw [endedBy, Row.find_set_of_ne _ _ hpk]
          exact hsaved r₀ hin (createdBy_endedBy.mp hcreated)
      have hrest := htrace.restoring ht hpk (hn.trans hchange.length_le)
        (fun x hx => hclash x (.tail _ hx))
        (fun x hx => hkeys x (.tail _ hx)) hsaved'
      exact hrest.undo ht hpk hn hchange hcols (hkeys x List.mem_cons_self) hsaved
        (hclash x List.mem_cons_self)

theorem Trace.finalRows_cols :
    ∀ {rows : List Row} {trace : List (UndoEntry × List Row)}, Trace t pk cols rows trace →
      SameColumns cols rows → SameColumns cols (finalRows rows trace)
  | _, [], _, hrows => hrows
  | _, _ :: _, ⟨_, hcols, htrace⟩, _ => htrace.finalRows_cols hcols

theorem SameColumns.undoTrace (h : SameColumns cols rows) (hmax : "_xmax" ∈ cols)
    (pk txnIdStr : String) :
    ∀ trace : List (UndoEntry × List Row),
      SameColumns cols (RusqlEngine.undoTrace pk txnIdStr trace rows)
  | [] => h
  | x :: trace => (h.undoTrace hmax pk txnIdStr trace).undoEntryRows hmax pk txnIdStr x.1

theorem Trace.lost (ht : t ≠ 0) (hpk : pk ≠ "_xmax") (hmax : "_xmax" ∈ cols)
    (hundone : SameColumns cols undone) :
    ∀ {rows : List Row} {trace : List (UndoEntry × List Row)}, Trace t pk cols rows trace →
      n ≤ rows.length → (∃ x ∈ trace, Clash t pk n x.1 x.2) →
      Lost t pk n rows (undoTrace pk (stdToString t) trace undone)
  | rows, [], _, _, hclash => by
      obtain ⟨x, hx, -⟩ := hclash
      cases hx
  | rows, x :: trace, ⟨hchange, hcols, htrace⟩, hn, hclash => by
      have hrest := hundone.undoTrace hmax pk (stdToString t) trace
      obtain ⟨y, hy, hclash⟩ := hclash
      rcases List.mem_cons.mp hy with rfl | hy
      · exact lost_of_clash ht hpk hn hchange hcols hrest hmax hclash
      · exact (htrace.lost ht hpk hmax hundone (hn.trans hchange.length_le) ⟨y, hy, hclash⟩).undo
          ht hpk hn hchange hcols hrest hmax

/-- Undoing the writes of a table gives the rows of the savepoint back exactly if none of
them clashes. -/
theorem Trace.undoTrace_perm_iff (ht : t ≠ 0) (hpk : pk ≠ "_xmax") (hmax : "_xmax" ∈ cols)
    {trace : List (UndoEntry × List Row)} (h : Trace t pk cols rows trace)
    (hrows : SameColumns cols rows) :
    (undoTrace pk (stdToString t) trace (finalRows rows trace)).Perm rows ↔
      ∀ x ∈ trace, ¬ Clash t pk rows.length x.1 x.2 := by
  constructor
  · intro hperm x hx hclash
    exact (h.lost ht hpk hmax (h.finalRows_cols hrows) le_rfl ⟨x, hx, hclash⟩).not_perm hperm
  · intro hclash
    have hrest : Restoring t pk rows.length
        {k | ∃ x ∈ trace, x.1.operation = .insert ∧ x.1.key = k} rows
        (undoTrace pk (stdToString t) trace (finalRows rows trace)) := by
      refine h.restoring ht hpk le_rfl hclash (fun x hx hop => ⟨x, hx, hop, rfl⟩) ?_
      rintro r hr hcreated k ⟨x, hx, hop, rfl⟩
      exact h.saved hpk le_rfl hclash x hx hop r hr hcreated
    exact hrest.perm le_rfl

/-- The transaction `t` is open, and every stored row has the columns of its table. -/
structure TxnOk (catalog : Catalog) (t : Nat) (s : OpenTxn) : Prop where
  active : s.txn.active = true
  txnId : s.txn.txnId = t
  stored : ∀ name rows, s.tables name = some rows →
    ∃ schema, catalog name = some schema ∧ SameColumns (tableCols schema) rows

variable {catalog : Catalog} {schema : TableSchema}

theorem OpenTxn.target_eq_some {s : OpenTxn} {table : String}
    (h : s.target catalog table pos = some (schema, rows, old)) :
    catalog table = some schema ∧ s.tables table = some rows ∧ rows[pos]? = some old ∧
      isVisible old := by
  obtain ⟨schema', hschema, h⟩ := Option.bind_eq_some_iff.mp h
  obtain ⟨rows', hrows, h⟩ := Option.bind_eq_some_iff.mp h
  obtain ⟨old', hold, h⟩ := Option.bind_eq_some_iff.mp h
  simp only [Option.ite_none_right_eq_some, Option.some.injEq, Prod.mk.injEq] at h
  obtain ⟨hlive, rfl, rfl, rfl⟩ := h
  exact ⟨hschema, hrows, hold, hlive⟩

theorem pushLog_undoLog {tm : TxnManager} (h : tm.active) (ops : List RedoOp)
    (entry : UndoEntry) : (tm.pushLog ops entry).undoLog = tm.undoLog ++ [entry] ∧
      (tm.pushLog ops entry).savepoints = tm.savepoints := by
  simp [pushLog, h]

theorem SameColumns.append {image : Row} (h : SameColumns cols rows) (himage : image.keys = cols) :
    SameColumns cols (rows ++ [image]) := by
  intro r hr
  rcases List.mem_append.mp hr with hr | hr
  · exact h r hr
  · rw [List.mem_singleton.mp hr]
    exact himage

theorem SameColumns.set_ended (h : SameColumns cols rows) (hmax : "_xmax" ∈ cols)
    (hpos : rows[pos]? = some old) : SameColumns cols (rows.set pos (endedBy t old)) := by
  have hold := h old (List.mem_of_getElem? hpos)
  intro r hr
  rcases List.mem_or_eq_of_mem_set hr with hr | rfl
  · exact h r hr
  · rw [endedBy, keys_set_xmax (by rw [hold]; exact hmax), hold]

/-- What a write does to the state: one table changes, one entry is logged. -/
structure Written (catalog : Catalog) (t : Nat) (s s' : OpenTxn) (table : String)
    (rows rows' : List Row) (entry : UndoEntry) : Prop where
  before : s.tables table = some rows
  after : s'.tables = update s.tables table (some rows')
  change : Change t (pkCol (catalog table)) rows entry rows'
  entry_table : entry.table = table
  undoLog : s'.txn.undoLog = s.txn.undoLog ++ [entry]
  savepoints : s'.txn.savepoints = s.txn.savepoints
  ok : TxnOk catalog t s'
  cols : ∀ schema, catalog table = some schema → SameColumns (tableCols schema) rows'

theorem Written.of_push {s s' : OpenTxn} {table : String} {ops : List RedoOp}
    (hok : TxnOk catalog t s) (hschema : catalog table = some schema)
    (hrows : s.tables table = some rows) (htxn : s'.txn = s.txn.pushLog ops entry)
    (htables : s'.tables = s.setRows table rows') (hentry : entry.table = table)
    (hchange : Change t (pkCol (some schema)) rows entry rows')
    (hcols : SameColumns (tableCols schema) rows') :
    Written catalog t s s' table rows rows' entry := by
  obtain ⟨hid, hactive, -, -, -⟩ := s.txn.pushLog_fields ops entry
  obtain ⟨hlog, hsavepoints⟩ := pushLog_undoLog hok.active ops entry
  refine ⟨hrows, htables, hschema ▸ hchange, hentry, htxn ▸ hlog, htxn ▸ hsavepoints, ?_, ?_⟩
  · refine ⟨htxn ▸ hactive.trans hok.active, htxn ▸ hid.trans hok.txnId, fun name l hl => ?_⟩
    rw [htables, OpenTxn.setRows, update_apply] at hl
    split at hl
    · rename_i hname
      subst hname
      obtain rfl := Option.some.inj hl
      exact ⟨schema, hschema, hcols⟩
    · exact hok.stored name l hl
  · intro schema' hschema'
    obtain rfl := Option.some.inj (hschema.symm.trans hschema')
    exact hcols

/-- Every write that finds its key changes one table, and the condition on it says that the change
does not clash. -/
theorem rowWriteStep_written {base s s' : OpenTxn} {w : RowWrite} (hok : TxnOk catalog t s)
    (hsize : ∀ name rows, s.tables name = some rows → base.size name ≤ rows.length)
    (hkey : KeyFound catalog s w) (hs : rowWriteStep catalog s w = some s') :
    ∃ table rows rows' entry, Written catalog t s s' table rows rows' entry ∧
      (Unshared catalog base s w ↔
        ¬ Clash t (pkCol (catalog table)) (base.size table) entry rows') := by
  have hid := hok.txnId
  cases w with
  | insert table row =>
    obtain ⟨schema, hschema, hs⟩ := Option.bind_eq_some_iff.mp hs
    obtain ⟨rows, hrows, hs⟩ := Option.bind_eq_some_iff.mp hs
    simp only [Option.ite_none_right_eq_some, Option.some.injEq] at hs
    obtain ⟨himage, rfl⟩ := hs
    obtain ⟨schema', hschema', hcols⟩ := hok.stored table rows hrows
    obtain rfl := Option.some.inj (hschema.symm.trans hschema')
    have hfound := hkey schema hschema
    subst hid
    refine ⟨table, rows, _, _, Written.of_push hok hschema hrows rfl rfl rfl
      (Change.insert _ rfl (row.find_tag_xmin _) hfound) (hcols.append himage), ?_⟩
    simp only [Clash, Unshared, hschema, hrows]
    rw [List.take_append_of_le_length (hsize table rows hrows)]
    simp
  | update table pos row cascade =>
    obtain ⟨⟨schema, rows, old⟩, htarget, hs⟩ := Option.bind_eq_some_iff.mp hs
    simp only [Option.ite_none_right_eq_some, Option.some.injEq] at hs
    obtain ⟨himage, rfl⟩ := hs
    obtain ⟨hschema, hrows, hpos, hlive⟩ := OpenTxn.target_eq_some htarget
    obtain ⟨schema', hschema', hcols⟩ := hok.stored table rows hrows
    obtain rfl := Option.some.inj (hschema.symm.trans hschema')
    have hmax := xmax_mem_tableCols schema
    have hzero := hcols.find_xmax hmax (List.mem_of_getElem? hpos) hlive
    obtain ⟨hold, htip⟩ := hkey schema rows old htarget
    subst hid
    have htip' : tipKey schema cascade old (row.tag s.txn.txnId) =
        (if logNewKey schema cascade old (row.tag s.txn.txnId) = "" ∨
          logNewKey schema cascade old (row.tag s.txn.txnId) =
            cellText old (logCol schema cascade) then none
        else some (logNewKey schema cascade old (row.tag s.txn.txnId))).getD
          (cellText old (logCol schema cascade)) := by
      simp only [tipKey]
      split <;> rfl
    refine ⟨table, rows, _, _, Written.of_push hok hschema hrows rfl rfl rfl
      (Change.update pos old _ rfl rfl hpos hzero hold (row.find_tag_xmin _)
        (row.find_tag_xmax _) (htip' ▸ htip))
      ((hcols.set_ended hmax hpos).append himage), ?_⟩
    have hlen : base.size table ≤ (rows.set pos (endedBy s.txn.txnId old)).length := by
      rw [List.length_set]
      exact hsize table rows hrows
    simp only [Clash, Unshared, hschema, htarget, ← htip']
    rw [List.take_append_of_le_length hlen]
    simp
  | delete table pos cascade =>
    obtain ⟨⟨schema, rows, old⟩, htarget, hs⟩ := Option.bind_eq_some_iff.mp hs
    simp only [Option.some.injEq] at hs
    subst hs
    obtain ⟨hschema, hrows, hpos, hlive⟩ := OpenTxn.target_eq_some htarget
    obtain ⟨schema', hschema', hcols⟩ := hok.stored table rows hrows
    obtain rfl := Option.some.inj (hschema.symm.trans hschema')
    have hmax := xmax_mem_tableCols schema
    have hzero := hcols.find_xmax hmax (List.mem_of_getElem? hpos) hlive
    subst hid
    refine ⟨table, rows, _, _, Written.of_push hok hschema hrows rfl rfl rfl
      (Change.delete pos old rfl rfl hpos hzero (hkey schema rows old htarget))
      (hcols.set_ended hmax hpos), ?_⟩
    simp only [Clash, Unshared, not_false_eq_true]

/-- The writes of a run, table by table. -/
structure Traced (catalog : Catalog) (t : Nat) (s s' : OpenTxn) (entries : List UndoEntry)
    (traces : String → List (UndoEntry × List Row)) : Prop where
  undoLog : s'.txn.undoLog = s.txn.undoLog ++ entries
  savepoints : s'.txn.savepoints = s.txn.savepoints
  ok : TxnOk catalog t s'
  entries_eq : ∀ name, entries.filter (fun e => e.table = name) = (traces name).map (·.1)
  absent : ∀ name, s.tables name = none → s'.tables name = none ∧ traces name = []
  trace : ∀ name rows, s.tables name = some rows →
    s'.tables name = some (finalRows rows (traces name)) ∧
    ∀ schema, catalog name = some schema →
      Trace t (pkCol (catalog name)) (tableCols schema) rows (traces name)

theorem exec_traced {base : OpenTxn} :
    ∀ {s s' : OpenTxn} {ws : List RowWrite}, TxnOk catalog t s →
      (∀ name rows, s.tables name = some rows → base.size name ≤ rows.length) →
      execOk (rowWriteStep catalog) (KeyFound catalog) s ws →
      exec (rowWriteStep catalog) s ws = some s' →
      ∃ entries traces, Traced catalog t s s' entries traces ∧
        (execOk (rowWriteStep catalog) (Unshared catalog base) s ws ↔
          ∀ name, ∀ x ∈ traces name, ¬ Clash t (pkCol (catalog name)) (base.size name) x.1 x.2)
  | s, s', [], hok, _, _, hs => by
      cases hs
      refine ⟨[], fun _ => [], ⟨by simp, rfl, hok, fun _ => rfl, fun _ h => ⟨h, rfl⟩, ?_⟩, ?_⟩
      · exact fun name rows hrows => ⟨hrows, fun _ _ => trivial⟩
      · simp [execOk]
  | s, s', w :: ws, hok, hsize, hkey, hs => by
      obtain ⟨s₁, h₁, h₂⟩ := Option.bind_eq_some_iff.mp hs
      obtain ⟨table, rows, rows', entry, hwritten, hclash⟩ :=
        rowWriteStep_written hok hsize hkey.1 h₁
      have hat : s₁.tables table = some rows' := by
        rw [hwritten.after, update_self]
      have hother : ∀ name, name ≠ table → s₁.tables name = s.tables name := fun name hname => by
        rw [hwritten.after, update_of_ne hname]
      have hsize₁ : ∀ name l, s₁.tables name = some l → base.size name ≤ l.length := by
        intro name l hl
        by_cases hname : name = table
        · subst hname
          obtain rfl := Option.some.inj (hat.symm.trans hl)
          exact (hsize _ rows hwritten.before).trans hwritten.change.length_le
        · exact hsize name l (hother name hname ▸ hl)
      obtain ⟨entries, traces, htraced, hiff⟩ :=
        exec_traced hwritten.ok hsize₁ (hkey.2 s₁ h₁) h₂
      refine ⟨entry :: entries,
        update traces table ((entry, rows') :: traces table), ⟨?_, ?_, ?_, ?_, ?_, ?_⟩, ?_⟩
      · rw [htraced.undoLog, hwritten.undoLog, List.append_assoc, List.singleton_append]
      · rw [htraced.savepoints, hwritten.savepoints]
      · exact htraced.ok
      · intro name
        by_cases hname : name = table
        · subst hname
          rw [update_self, List.filter_cons_of_pos (by simp [hwritten.entry_table]),
            htraced.entries_eq, List.map_cons]
        · have hne : entry.table ≠ name := fun h => hname (h.symm.trans hwritten.entry_table)
          rw [update_of_ne hname, List.filter_cons_of_neg (by simpa using hne), htraced.entries_eq]
      · intro name hnone
        by_cases hname : name = table
        · subst hname
          rw [hwritten.before] at hnone
          cases hnone
        · rw [update_of_ne hname]
          exact htraced.absent name (hother name hname ▸ hnone)
      · intro name l hl
        by_cases hname : name = table
        · subst hname
          obtain rfl := Option.some.inj (hwritten.before.symm.trans hl)
          obtain ⟨hfinal, htrace⟩ := htraced.trace name rows' hat
          rw [update_self]
          exact ⟨hfinal, fun schema hschema =>
            ⟨hwritten.change, hwritten.cols schema hschema, htrace schema hschema⟩⟩
        · rw [update_of_ne hname]
          exact htraced.trace name l (hother name hname ▸ hl)
      · have htail : execOk (rowWriteStep catalog) (Unshared catalog base) s (w :: ws) ↔
            Unshared catalog base s w ∧
              execOk (rowWriteStep catalog) (Unshared catalog base) s₁ ws := by
          refine and_congr_right fun _ => ⟨fun h => h s₁ h₁, fun h s₂ h₂ => ?_⟩
          obtain rfl := Option.some.inj (h₁.symm.trans h₂)
          exact h
        rw [htail, hiff, hclash]
        constructor
        · rintro ⟨hhead, hrest⟩ name x hx
          by_cases hname : name = table
          · subst hname
            rw [update_self] at hx
            rcases List.mem_cons.mp hx with rfl | hx
            · exact hhead
            · exact hrest name x hx
          · rw [update_of_ne hname] at hx
            exact hrest name x hx
        · intro hall
          refine ⟨?_, fun name x hx => ?_⟩
          · refine hall table (entry, rows') ?_
            rw [update_self]
            exact List.mem_cons_self
          · refine hall name x ?_
            by_cases hname : name = table
            · subst hname
              rw [update_self]
              exact List.mem_cons_of_mem _ hx
            · rwa [update_of_ne hname]

theorem foldl_undoEntryTables (catalog : Catalog) (txnIdStr : String) (entries : List UndoEntry)
    (tables : Tables) (name : String) :
    entries.reverse.foldl (undoEntryTables catalog txnIdStr) tables name =
      (tables name).map fun rows => (entries.filter fun e => e.table = name).foldr
        (fun e undone => undoEntryRows (pkCol (catalog name)) txnIdStr e undone) rows := by
  induction entries with
  | nil => simp
  | cons entry entries ih =>
    rw [List.reverse_cons, List.foldl_append, List.foldl_cons, List.foldl_nil, undoEntryTables]
    by_cases hname : name = entry.table
    · rw [if_pos hname, ih, Option.map_map, List.filter_cons_of_pos (by simp [hname])]
      rfl
    · have hne : entry.table ≠ name := fun h => hname h.symm
      rw [if_neg hname, ih, List.filter_cons_of_neg (by simpa using hne)]

/-- The moment right after `SAVEPOINT name`. -/
structure AtSavepoint (catalog : Catalog) (t : Nat) (name : String) (s : OpenTxn) : Prop where
  ok : TxnOk catalog t s
  id_pos : t ≠ 0
  created : ∃ tm : TxnManager, tm.createSavepoint name = .ok s.txn
  keyCol : ∀ table, pkCol (catalog table) ≠ "_xmax"

theorem rollbackToSavepoint_eq {tm tm₀ txn : TxnManager} {name : String}
    {entries : List UndoEntry} (hcreated : tm.createSavepoint name = .ok tm₀)
    (hactive : txn.active) (hsavepoints : txn.savepoints = tm₀.savepoints)
    (hlog : txn.undoLog = tm₀.undoLog ++ entries) :
    ∃ txn', txn.rollbackToSavepoint name = .ok (txn', entries.reverse) ∧
      txn'.active ∧ txn'.txnId = txn.txnId := by
  unfold createSavepoint at hcreated
  split at hcreated
  · cases hcreated
  · cases hcreated
    simp only at hsavepoints hlog
    have hdrop : txn.savepoints.reverse.dropWhile (·.1 ≠ name) =
        (name, tm.undoLog.length) :: (tm.savepoints.filter (·.1 ≠ name)).reverse := by
      rw [hsavepoints, List.reverse_append, List.reverse_singleton, List.singleton_append,
        List.dropWhile_cons_of_neg (by simp)]
    simp only [rollbackToSavepoint, hactive, Bool.true_eq_false, if_false, hdrop,
      hlog, List.drop_left, Except.ok.injEq, Prod.mk.injEq, and_true]
    exact ⟨_, rfl, rfl, rfl⟩

/-- `ROLLBACK TO` gives every table the rows of the savepoint, if each write since then is
logged under the text by which it is found again, exactly if no write shares its key with a
version that the transaction had made before the savepoint. -/
theorem rollbackTo_restores_iff {catalog : Catalog} {t : Nat} {name : String} {s₀ s : OpenTxn}
    {ws : List RowWrite} (h₀ : AtSavepoint catalog t name s₀)
    (hkey : execOk (rowWriteStep catalog) (KeyFound catalog) s₀ ws)
    (hs : exec (rowWriteStep catalog) s₀ ws = some s) :
    ∃ tables txn, execRollbackTo catalog s.tables s.txn name = .ok (tables, txn) ∧
      ((∀ table, (tables table).map Multiset.ofList = (s₀.tables table).map Multiset.ofList) ↔
        execOk (rowWriteStep catalog) (Unshared catalog s₀) s₀ ws) := by
  have hsize : ∀ name rows, s₀.tables name = some rows → s₀.size name ≤ rows.length := by
    intro name rows hrows
    simp [OpenTxn.size, hrows]
  obtain ⟨entries, traces, htraced, hiff⟩ := exec_traced h₀.ok hsize hkey hs
  obtain ⟨tm, hcreated⟩ := h₀.created
  obtain ⟨txn, hrollback, hactive, hid⟩ := rollbackToSavepoint_eq hcreated htraced.ok.active
    htraced.savepoints htraced.undoLog
  have hcurrent : txn.currentTxnId = t := by
    rw [TxnManager.currentTxnId, if_pos hactive, hid, htraced.ok.txnId]
  have hresult : execRollbackTo catalog s.tables s.txn name =
      .ok (entries.reverse.foldl (undoEntryTables catalog (stdToString t)) s.tables, txn) := by
    simp only [execRollbackTo, hrollback, hcurrent]
  refine ⟨_, txn, hresult, ?_⟩
  rw [hiff]
  simp only [foldl_undoEntryTables, htraced.entries_eq, List.foldr_map]
  refine forall_congr' fun table => ?_
  cases hrows : s₀.tables table with
  | none =>
    obtain ⟨hnone, htrace⟩ := htraced.absent table hrows
    simp [hnone, htrace]
  | some rows =>
    obtain ⟨hfinal, htrace⟩ := htraced.trace table rows hrows
    obtain ⟨schema, hschema, hcols⟩ := h₀.ok.stored table rows hrows
    have hperm := (htrace schema hschema).undoTrace_perm_iff h₀.id_pos (h₀.keyCol table)
      (xmax_mem_tableCols schema) hcols
    have hlen : s₀.size table = rows.length := by
      simp [OpenTxn.size, hrows]
    rw [hfinal, hlen, ← hperm]
    simp only [Option.map_some, Option.some.injEq, Multiset.coe_eq_coe]
    rfl

/-- A table with the key `(a, b)` and a table with the key `id`. -/
def ordersCatalog : Catalog
  | "orders" => some ⟨[⟨"a", true, false⟩, ⟨"b", true, false⟩], ["a", "b"], []⟩
  | "users" => some ⟨[⟨"id", true, false⟩, ⟨"v", false, false⟩], [], []⟩
  | _ => none

/-- Transaction 2 has inserted `(1, 1)` into `orders` before the savepoint. -/
def ordersAtSavepoint : OpenTxn where
  tables := fun
    | "orders" => some [(Row.ofCells [("a", "1"), ("b", "1")]).tag 2]
    | "users" => some [(Row.ofCells [("id", "1"), ("v", "a")]).tag 1]
    | _ => none
  txn := { fresh with
    active := true, txnId := 2, savepoints := [("sp", 1)],
    undoLog := [⟨2, .insert, "orders", "1", none, none⟩] }

theorem ordersAtSavepoint_ok : AtSavepoint ordersCatalog 2 "sp" ordersAtSavepoint := by
  refine ⟨⟨rfl, rfl, ?_⟩, by decide, ⟨{ ordersAtSavepoint.txn with savepoints := [] }, rfl⟩, ?_⟩
  · intro name rows hrows
    unfold ordersAtSavepoint at hrows
    simp only at hrows
    split at hrows
    · obtain rfl := Option.some.inj hrows
      exact ⟨_, rfl, by unfold SameColumns; decide⟩
    · obtain rfl := Option.some.inj hrows
      exact ⟨_, rfl, by unfold SameColumns; decide⟩
    · cases hrows
  · intro table
    unfold ordersCatalog
    split <;> decide

/-- `INSERT INTO orders VALUES (1, 2)` after the savepoint: `ROLLBACK TO` erases `(1, 1)`, too. -/
theorem rollbackTo_erases_row_of_savepoint :
    ∃ s tables txn, AtSavepoint ordersCatalog 2 "sp" ordersAtSavepoint ∧
      exec (rowWriteStep ordersCatalog) ordersAtSavepoint
        [.insert "orders" (Row.ofCells [("a", "1"), ("b", "2")])] = some s ∧
      execRollbackTo ordersCatalog s.tables s.txn "sp" = .ok (tables, txn) ∧
      (tables "orders").map Multiset.ofList ≠
        (ordersAtSavepoint.tables "orders").map Multiset.ofList := by
  have hview : (exec (rowWriteStep ordersCatalog) ordersAtSavepoint
      [.insert "orders" (Row.ofCells [("a", "1"), ("b", "2")])]).map (fun s =>
        (execRollbackTo ordersCatalog s.tables s.txn "sp").toOption.map fun r => r.1 "orders") =
      some (some (some [])) := by decide
  obtain ⟨s, hs, hview⟩ := Option.map_eq_some_iff.mp hview
  cases hresult : execRollbackTo ordersCatalog s.tables s.txn "sp" with
  | error message => simp [hresult, Except.toOption] at hview
  | ok r =>
    have hrows : r.1 "orders" = some [] := by simpa [hresult, Except.toOption] using hview
    refine ⟨s, r.1, r.2, ordersAtSavepoint_ok, hs, hresult, ?_⟩
    rw [hrows]
    simp [ordersAtSavepoint]

/-- `UPDATE users SET id = 7, v = 'b' WHERE id = 1`. -/
def moveUser : RowWrite :=
  .update "users" 0 (Row.ofCells [("id", "7"), ("v", "b")]) false

theorem ordersAtSavepoint_target
    (h : ordersAtSavepoint.target ordersCatalog "users" 0 = some (schema, rows, old)) :
    schema = ⟨[⟨"id", true, false⟩, ⟨"v", false, false⟩], [], []⟩ ∧
      rows = [(Row.ofCells [("id", "1"), ("v", "a")]).tag 1] ∧
      old = (Row.ofCells [("id", "1"), ("v", "a")]).tag 1 := by
  have htarget : ordersAtSavepoint.target ordersCatalog "users" 0 =
      some (⟨[⟨"id", true, false⟩, ⟨"v", false, false⟩], [], []⟩,
        [(Row.ofCells [("id", "1"), ("v", "a")]).tag 1],
        (Row.ofCells [("id", "1"), ("v", "a")]).tag 1) := by decide
  rw [htarget, Option.some.injEq, Prod.mk.injEq, Prod.mk.injEq] at h
  exact ⟨h.1.symm, h.2.1.symm, h.2.2.symm⟩

theorem rollbackTo_restores_iff_moveUser :
    ∃ s, AtSavepoint ordersCatalog 2 "sp" ordersAtSavepoint ∧
      execOk (rowWriteStep ordersCatalog) (KeyFound ordersCatalog) ordersAtSavepoint [moveUser] ∧
      exec (rowWriteStep ordersCatalog) ordersAtSavepoint [moveUser] = some s ∧
      ∃ tables txn, execRollbackTo ordersCatalog s.tables s.txn "sp" = .ok (tables, txn) ∧
        ∀ table, (tables table).map Multiset.ofList =
          (ordersAtSavepoint.tables table).map Multiset.ofList := by
  obtain ⟨s, hs⟩ : ∃ s, exec (rowWriteStep ordersCatalog) ordersAtSavepoint [moveUser] = some s :=
    Option.isSome_iff_exists.mp (by decide)
  have hkey : execOk (rowWriteStep ordersCatalog) (KeyFound ordersCatalog) ordersAtSavepoint
      [moveUser] := by
    refine ⟨fun schema rows old h => ?_, fun _ _ => trivial⟩
    obtain ⟨rfl, rfl, rfl⟩ := ordersAtSavepoint_target h
    decide
  have hunshared : execOk (rowWriteStep ordersCatalog)
      (Unshared ordersCatalog ordersAtSavepoint) ordersAtSavepoint [moveUser] := by
    refine ⟨fun schema rows old h => ?_, fun _ _ => trivial⟩
    obtain ⟨rfl, rfl, rfl⟩ := ordersAtSavepoint_target h
    decide
  obtain ⟨tables, txn, hresult, hiff⟩ := rollbackTo_restores_iff ordersAtSavepoint_ok hkey hs
  exact ⟨s, ordersAtSavepoint_ok, hkey, hs, tables, txn, hresult, hiff.mpr hunshared⟩

end RusqlEngine
