import RusqlEngine.Session

/-!
# Undoing a transaction by its stamps

`apply_rollback`, the uncommitted branch of `recover_from_wal` and `BufferPool::save_committed` all
undo a transaction by matching its id against the two stamps of every row. Several open transactions
write rows in any order; `leaveOut` is the same history without some of them, and the three
functions compute it.
-/

namespace RusqlEngine

open Transition TxnManager Function

/-- `apply_rollback` of the transaction on the tables its undo log names. -/
def applyRollbackTables (tables : String → List Row) (txn : TxnManager) :
    String → List Row :=
  fun name => if name ∈ txn.dirtyTables then (tables name).filterMap (undoRow txn.txnId)
    else tables name

def tablesOfTxn (undo : List UndoEntry) (txnId : Nat) : List String :=
  (undo.filter (·.txnId = txnId)).map (·.table)

/-- The uncommitted branch of `recover_from_wal`. -/
def recoverUncommitted (tables : String → List Row) (undo : List UndoEntry) (txnId : Nat) :
    String → List Row :=
  fun name => if name ∈ tablesOfTxn undo txnId then (tables name).filterMap (undoRow txnId)
    else tables name

/-- One row of `save_committed`. -/
def savedRow (openIds : Finset Nat) (row : Row) : Option Row :=
  if txnIdOf row "_xmin" ∈ openIds then none
  else if txnIdOf row "_xmax" ∈ openIds then some (row.set "_xmax" "0")
  else some row

/-- The rows that `BufferPool::save_committed` writes to the table file. -/
def saveCommitted (openTransactions : Finset Nat) (keepTxn : Nat) (rows : List Row) :
    List Row :=
  let openIds := openTransactions.erase keepTxn
  let affected := openIds ≠ ∅ ∧ ∃ r ∈ rows,
    txnIdOf r "_xmin" ∈ openIds ∨ txnIdOf r "_xmax" ∈ openIds
  if affected then rows.filterMap (savedRow openIds) else rows

/-- Rolling back several transactions one after the other. -/
def rollbackInOrder (tables : String → List Row) (txns : Nat → TxnManager) :
    List Nat → String → List Row
  | [] => tables
  | t :: order => rollbackInOrder (applyRollbackTables tables (txns t)) txns order

/-- The tables while transactions are open: the versions, the managers of the open transactions and
the log files. -/
structure Writing where
  store : List Version
  opened : Finset Nat
  txns : Nat → TxnManager
  files : LogFiles

/-- A row write of transaction `t`, or its `COMMIT`. Versions are named by labels. -/
inductive Write
  | insert (t label : Nat) (table key : String) (row : Row)
  | delete (t label : Nat) (key : String)
  | update (t label newLabel : Nat) (key newKey : String) (row : Row)
  | commit (t : Nat)

namespace Write

def txn : Write → Nat
  | insert t _ _ _ _ => t
  | delete t _ _ => t
  | update t _ _ _ _ _ => t
  | commit t => t

end Write

def rowsIn (store : List Version) (name : String) : List Row :=
  (store.filter fun v => v.table = name).map (·.row)

namespace Writing

def tables (s : Writing) : String → List Row :=
  rowsIn s.store

/-- The row locks: a live version may be ended unless another open transaction has
created it. -/
def mayEnd (s : Writing) (t label : Nat) : Prop :=
  ∀ v ∈ s.store, v.vid = label → isVisible v.row ∧ ∀ u ∈ s.opened, u ≠ t →
    v.row.xmin ≠ u

instance (s : Writing) (t label : Nat) : Decidable (s.mayEnd t label) :=
  inferInstanceAs (Decidable (∀ v ∈ s.store, v.vid = label → _ ∧ ∀ u ∈ s.opened, u ≠ t → _))

end Writing

/-- `row["_xmax"] = t` on the version with the label. -/
def endLabel (store : List Version) (label t : Nat) : List Version :=
  store.map fun v =>
    if v.vid = label then { v with row := v.row.set "_xmax" (stdToString t) } else v

open Writing

/-- One write; `none` where a lock forbids it or the version is not there. -/
def writeStep (s : Writing) : Write → Option Writing
  | .insert t label table key row =>
    if t ∈ s.opened ∧ ∀ v ∈ s.store, v.vid ≠ label then
      let image := row.tag t
      some { s with
        store := s.store ++ [⟨label, table, image⟩]
        txns := update s.txns t ((s.txns t).logInsert table key image)
        files := (s.txns t).logInsertFiles s.files table key image }
    else none
  | .delete t label key =>
    match s.store.find? (·.vid = label) with
    | some v =>
      if t ∈ s.opened ∧ s.mayEnd t label then
        some { s with
          store := endLabel s.store label t
          txns := update s.txns t ((s.txns t).logDelete v.table key v.row)
          files := (s.txns t).logDeleteFiles s.files v.table key v.row }
      else none
    | none => none
  | .update t label newLabel key newKey row =>
    match s.store.find? (·.vid = label) with
    | some v =>
      if t ∈ s.opened ∧ s.mayEnd t label ∧ ∀ w ∈ s.store, w.vid ≠ newLabel then
        let image := row.tag t
        some { s with
          store := endLabel s.store label t ++ [⟨newLabel, v.table, image⟩]
          txns := update s.txns t
            ((s.txns t).logUpdate v.table key v.row image newKey)
          files := (s.txns t).logUpdateFiles s.files v.table key v.row image }
      else none
    | none => none
  | .commit t =>
    if t ∈ s.opened then
      some { s with
        opened := s.opened.erase t
        txns := update s.txns t (s.txns t).finish
        files := removeTxn s.files t }
    else none

variable {s s' : Writing} {t label : Nat} {table : String} {row : Row}

theorem writeStep_insert_iff {key : String} :
    writeStep s (.insert t label table key row) = some s' ↔
      (t ∈ s.opened ∧ ∀ v ∈ s.store, v.vid ≠ label) ∧
      { s with
        store := s.store ++ [⟨label, table, row.tag t⟩]
        txns := update s.txns t ((s.txns t).logInsert table key (row.tag t))
        files := (s.txns t).logInsertFiles s.files table key (row.tag t) } = s' := by
  simp only [writeStep, Option.ite_none_right_eq_some, Option.some.injEq]

theorem writeStep_delete_iff {key : String} :
    writeStep s (.delete t label key) = some s' ↔
      ∃ v, s.store.find? (·.vid = label) = some v ∧ (t ∈ s.opened ∧ s.mayEnd t label) ∧
        { s with
          store := endLabel s.store label t
          txns := update s.txns t ((s.txns t).logDelete v.table key v.row)
          files := (s.txns t).logDeleteFiles s.files v.table key v.row } = s' := by
  simp only [writeStep]
  cases s.store.find? (·.vid = label) with
  | none => simp
  | some v => simp only [Option.ite_none_right_eq_some, Option.some.injEq, exists_eq_left']

theorem writeStep_update_iff {newLabel : Nat} {key newKey : String} :
    writeStep s (.update t label newLabel key newKey row) = some s' ↔
      ∃ v, s.store.find? (·.vid = label) = some v ∧
        (t ∈ s.opened ∧ s.mayEnd t label ∧ ∀ w ∈ s.store, w.vid ≠ newLabel) ∧
        { s with
          store := endLabel s.store label t ++ [⟨newLabel, v.table, row.tag t⟩]
          txns := update s.txns t
            ((s.txns t).logUpdate v.table key v.row (row.tag t) newKey)
          files := (s.txns t).logUpdateFiles s.files v.table key v.row (row.tag t) } = s' := by
  simp only [writeStep]
  cases s.store.find? (·.vid = label) with
  | none => simp
  | some v => simp only [Option.ite_none_right_eq_some, Option.some.injEq, exists_eq_left']

theorem writeStep_commit_iff :
    writeStep s (.commit t) = some s' ↔ t ∈ s.opened ∧
      { s with
        opened := s.opened.erase t
        txns := update s.txns t (s.txns t).finish
        files := removeTxn s.files t } = s' := by
  simp only [writeStep, Option.ite_none_right_eq_some, Option.some.injEq]

/-- A version in the history without the transactions `ids`. -/
def leaveOutVersion (ids : Finset Nat) (v : Version) : Option Version :=
  if v.row.xmin ∈ ids then none
  else if v.row.xmax ∈ ids then some { v with row := v.row.set "_xmax" "0" }
  else some v

def leaveOut (ids : Finset Nat) (store : List Version) : List Version :=
  store.filterMap (leaveOutVersion ids)

/-- A row with both stamps, as every write of the engine leaves it. -/
structure Signed (row : Row) : Prop where
  xminCell : ∃ id, id ≤ uint64Max ∧ row.find "_xmin" = some (stdToString id)
  xmaxCell : ∃ id, id ≤ uint64Max ∧ row.find "_xmax" = some (stdToString id)

namespace Signed

theorem find_xmin (h : Signed row) : row.find "_xmin" = some (stdToString row.xmin) := by
  obtain ⟨id, hid, hf⟩ := h.xminCell
  rw [hf, Row.xmin, parseTxnId_of_find hf hid]

theorem find_xmax (h : Signed row) : row.find "_xmax" = some (stdToString row.xmax) := by
  obtain ⟨id, hid, hf⟩ := h.xmaxCell
  rw [hf, Row.xmax, parseTxnId_of_find hf hid]

theorem isVisible_iff (h : Signed row) : isVisible row ↔ row.xmax = 0 := by
  simp only [isVisible, h.find_xmax, beq_iff_eq]
  exact stdToString_eq_zero_iff

theorem tag (row : Row) {id : Nat} (h : id ≤ uint64Max) : Signed (row.tag id) :=
  ⟨⟨id, h, row.find_tag_xmin id⟩, ⟨0, Nat.zero_le _, row.find_tag_xmax id⟩⟩

theorem set_xmax (h : Signed row) {id : Nat} (hid : id ≤ uint64Max) :
    Signed (row.set "_xmax" (stdToString id)) := by
  refine ⟨?_, ⟨id, hid, Row.find_set _ _ _⟩⟩
  rw [Row.find_set_of_ne _ _ (by decide)]
  exact h.xminCell

theorem revive (h : Signed row) : Signed (row.set "_xmax" "0") :=
  h.set_xmax (Nat.zero_le _)

theorem set_zero (h : Signed row) (h0 : row.xmax = 0) : row.set "_xmax" "0" = row := by
  refine Row.set_eq_self ?_
  rw [h.find_xmax, h0, stdToString_zero]

theorem txnIdOf_xmin (h : Signed row) : txnIdOf row "_xmin" = row.xmin := by
  obtain ⟨id, hid, hf⟩ := h.xminCell
  have hx : row.xmin = id := parseTxnId_of_find hf hid
  simp only [txnIdOf, hf, strtoull_stdToString hid, hx]
  split
  · rename_i h0
    exact (stdToString_eq_zero_iff.mp h0).symm
  · rfl

theorem txnIdOf_xmax (h : Signed row) : txnIdOf row "_xmax" = row.xmax := by
  obtain ⟨id, hid, hf⟩ := h.xmaxCell
  have hx : row.xmax = id := parseTxnId_of_find hf hid
  simp only [txnIdOf, hf, strtoull_stdToString hid, hx]
  split
  · rename_i h0
    exact (stdToString_eq_zero_iff.mp h0).symm
  · rfl

end Signed

theorem undoRow_eq (h : Signed row) :
    undoRow t row = if row.xmin = t then none
      else if row.xmax = t then some (row.set "_xmax" "0") else some row := by
  have hmin : (row.find "_xmin" = some (stdToString t)) ↔ row.xmin = t := by
    rw [h.find_xmin, Option.some.injEq]
    exact ⟨fun he => stdToString_injective he, fun he => by rw [he]⟩
  have hmax : (row.find "_xmax" = some (stdToString t)) ↔ row.xmax = t := by
    rw [h.find_xmax, Option.some.injEq]
    exact ⟨fun he => stdToString_injective he, fun he => by rw [he]⟩
  simp only [undoRow, hmin, hmax]

variable {ids : Finset Nat}

theorem savedRow_eq (h : Signed row) :
    savedRow ids row = if row.xmin ∈ ids then none
      else if row.xmax ∈ ids then some (row.set "_xmax" "0") else some row := by
  simp only [savedRow, h.txnIdOf_xmin, h.txnIdOf_xmax]

variable {v : Version}

theorem leaveOutVersion_row :
    (leaveOutVersion ids v).map (·.row) = if v.row.xmin ∈ ids then none
      else if v.row.xmax ∈ ids then some (v.row.set "_xmax" "0") else some v.row := by
  unfold leaveOutVersion
  split
  · rfl
  · split <;> rfl

variable {v' : Version}

theorem leaveOutVersion_table (h : leaveOutVersion ids v = some v') :
    v'.table = v.table ∧ v'.vid = v.vid := by
  unfold leaveOutVersion at h
  split at h
  · cases h
  · split at h <;> cases h <;> exact ⟨rfl, rfl⟩

theorem rowsIn_leaveOut (ids : Finset Nat) (store : List Version) (name : String) :
    rowsIn (leaveOut ids store) name = (store.filter fun v => v.table = name).filterMap
      fun v => (leaveOutVersion ids v).map (·.row) := by
  unfold rowsIn
  induction store with
  | nil => rfl
  | cons v store ih =>
    cases hv : leaveOutVersion ids v with
    | none =>
      by_cases hn : v.table = name
      · simpa [leaveOut, hv, hn] using ih
      · simpa [leaveOut, hv, hn] using ih
    | some v' =>
      have ht := (leaveOutVersion_table hv).1
      by_cases hn : v.table = name
      · simpa [leaveOut, hv, hn, ht] using ih
      · simpa [leaveOut, hv, hn, ht] using ih

/-- Rows are signed, and an open transaction has logged every table it has a stamp in, in
memory and in the undo file. -/
structure WritingInv (s : Writing) : Prop where
  nodup : (s.store.map (·.vid)).Nodup
  signed : ∀ v ∈ s.store, Signed v.row
  id_pos : ∀ t ∈ s.opened, 0 < t ∧ t ≤ uint64Max
  managed : ∀ t ∈ s.opened, (s.txns t).active ∧ (s.txns t).txnId = t
  logged : ∀ t ∈ s.opened, ∀ v ∈ s.store, v.row.xmin = t ∨ v.row.xmax = t →
    v.table ∈ (s.txns t).dirtyTables ∧ v.table ∈ tablesOfTxn s.files.undo t

/-- The open transactions have not written yet. -/
structure Writing.Fresh (s : Writing) : Prop where
  nodup : (s.store.map (·.vid)).Nodup
  signed : ∀ v ∈ s.store, Signed v.row
  id_pos : ∀ t ∈ s.opened, 0 < t ∧ t ≤ uint64Max
  managed : ∀ t ∈ s.opened, (s.txns t).active ∧ (s.txns t).txnId = t
  unwritten : ∀ t ∈ s.opened, ∀ v ∈ s.store, v.row.xmin ≠ t ∧ v.row.xmax ≠ t

theorem Writing.Fresh.inv (h : s.Fresh) : WritingInv s := by
  refine ⟨h.nodup, h.signed, h.id_pos, h.managed, ?_⟩
  intro t ht v hv hstamp
  exact absurd hstamp (not_or.mpr (h.unwritten t ht v hv))

variable {entry : UndoEntry}

theorem mem_tablesOfTxn_append {undo : List UndoEntry} {name : String} :
    name ∈ tablesOfTxn (undo ++ [entry]) t ↔
      name ∈ tablesOfTxn undo t ∨ (entry.txnId = t ∧ name = entry.table) := by
  unfold tablesOfTxn
  by_cases h : entry.txnId = t
  · simp [h, List.filter_append]
  · simp [h, List.filter_append]

theorem mem_tablesOfTxn_removeTxn {files : LogFiles} {u : Nat} {name : String} (h : t ≠ u) :
    name ∈ tablesOfTxn (removeTxn files u).undo t ↔
      name ∈ tablesOfTxn files.undo t := by
  have hp : ∀ e : UndoEntry, (decide (e.txnId = t) && decide (e.txnId ≠ u)) =
      decide (e.txnId = t) := by
    intro e
    by_cases he : e.txnId = t
    · simp [he, h]
    · simp [he]
  unfold tablesOfTxn removeTxn
  rw [List.filter_filter]
  simp only [hp]

/-- A write of `t` that logs the table keeps the logs of all open transactions. -/
theorem WritingInv.logged_of_push {ops : List RedoOp} {fileEntry : UndoEntry} {record : WalRecord}
    (h : WritingInv s) (ht : t ∈ s.opened) (hentry : entry.table = table)
    (hfile : fileEntry.table = table) (hfileId : fileEntry.txnId = t)
    (htxns : s'.txns = update s.txns t ((s.txns t).pushLog ops entry))
    (hfiles : s'.files = (s.txns t).appendFiles s.files record fileEntry) {u : Nat}
    (hu : u ∈ s.opened) :
    ((s'.txns u).active ∧ (s'.txns u).txnId = u) ∧
      (∀ name, name ∈ (s.txns u).dirtyTables ∧ name ∈ tablesOfTxn s.files.undo u →
        name ∈ (s'.txns u).dirtyTables ∧ name ∈ tablesOfTxn s'.files.undo u) ∧
      (u = t → table ∈ (s'.txns u).dirtyTables ∧ table ∈ tablesOfTxn s'.files.undo u) := by
  have hactive := (h.managed t ht).1
  have hundo : s'.files.undo = s.files.undo ++ [fileEntry] := by
    simp [hfiles, appendFiles, hactive]
  rw [htxns, hundo]
  by_cases hut : u = t
  · subst hut
    obtain ⟨hid, hact, -, -, -⟩ := (s.txns u).pushLog_fields ops entry
    simp only [update_self]
    refine ⟨⟨hact.trans hactive, hid.trans (h.managed u hu).2⟩, ?_, fun _ => ⟨?_, ?_⟩⟩
    · rintro name ⟨h₁, h₂⟩
      exact ⟨(s.txns u).dirtyTables_subset_pushLog ops entry h₁,
        mem_tablesOfTxn_append.mpr (.inl h₂)⟩
    · exact (dirtyTables_pushLog ops entry hactive).mpr (.inr hentry.symm)
    · exact mem_tablesOfTxn_append.mpr (.inr ⟨hfileId, hfile.symm⟩)
  · simp only [update_of_ne hut]
    refine ⟨h.managed u hu, ?_, fun he => absurd he hut⟩
    rintro name ⟨h₁, h₂⟩
    exact ⟨h₁, mem_tablesOfTxn_append.mpr (.inl h₂)⟩

variable {store : List Version}

theorem mem_endLabel :
    v' ∈ endLabel store label t ↔ ∃ v ∈ store, v' =
      if v.vid = label then { v with row := v.row.set "_xmax" (stdToString t) } else v := by
  simp only [endLabel, List.mem_map]
  exact ⟨fun ⟨v, hv, e⟩ => ⟨v, hv, e.symm⟩, fun ⟨v, hv, e⟩ => ⟨v, hv, e.symm⟩⟩

/-- A version after a write of `t` is an old one, or in the logged table one that `t` has just ended
or a new one of `t`. -/
def WrittenFrom (s : Writing) (t : Nat) (table : String) (v' : Version) : Prop :=
  v' ∈ s.store ∨ (∃ v ∈ s.store, v.table = table ∧
      v' = { v with row := v.row.set "_xmax" (stdToString t) }) ∨
    ∃ label row, v' = ⟨label, table, Row.tag row t⟩

theorem WritingInv.push {ops : List RedoOp} {fileEntry : UndoEntry} {record : WalRecord}
    (h : WritingInv s) (ht : t ∈ s.opened) (hopened : s'.opened = s.opened)
    (htxns : s'.txns = update s.txns t ((s.txns t).pushLog ops entry))
    (hfiles : s'.files = (s.txns t).appendFiles s.files record fileEntry)
    (hentry : entry.table = table) (hfile : fileEntry.table = table) (hfileId : fileEntry.txnId = t)
    (hnodup : (s'.store.map (·.vid)).Nodup) (hstore : ∀ v' ∈ s'.store, WrittenFrom s t table v') :
    WritingInv s' := by
  have hlog := fun {u : Nat} (hu : u ∈ s.opened) =>
    h.logged_of_push ht hentry hfile hfileId htxns hfiles hu
  have hmax := (h.id_pos t ht).2
  refine ⟨hnodup, ?_, ?_, ?_, ?_⟩
  · intro v' hv'
    rcases hstore v' hv' with hv | ⟨v, hv, -, rfl⟩ | ⟨label, row, rfl⟩
    · exact h.signed v' hv
    · exact (h.signed v hv).set_xmax hmax
    · exact Signed.tag row hmax
  · rw [hopened]
    exact h.id_pos
  · rw [hopened]
    exact fun u hu => (hlog hu).1
  · rw [hopened]
    intro u hu v' hv' hstamp
    obtain ⟨-, hold, hnew⟩ := hlog hu
    rcases hstore v' hv' with hv | ⟨v, hv, htable, rfl⟩ | ⟨label, row, rfl⟩
    · exact hold _ (h.logged u hu v' hv hstamp)
    · rw [Row.xmin_set_xmax, Row.xmax_set_xmax _ hmax] at hstamp
      rcases hstamp with hmin | rfl
      · exact hold _ (h.logged u hu v hv (.inl hmin))
      · rw [htable]
        exact hnew rfl
    · rw [Row.xmin_tag row hmax, Row.xmax_tag] at hstamp
      rcases hstamp with rfl | rfl
      · exact hnew rfl
      · exact absurd (h.id_pos 0 hu).1 (lt_irrefl 0)

theorem map_vid_endLabel (store : List Version) (label t : Nat) :
    (endLabel store label t).map (·.vid) = store.map (·.vid) := by
  simp only [endLabel, List.map_map]
  apply List.map_congr_left
  intro v _
  simp only [comp_apply]
  split <;> rfl

theorem nodup_append_label {vids : List Nat} (h : vids.Nodup) (hnew : label ∉ vids) :
    (vids ++ [label]).Nodup := by
  refine List.Nodup.append h (List.nodup_singleton _) ?_
  intro vid hin he
  exact hnew (List.mem_singleton.mp he ▸ hin)

theorem WritingInv.eq_of_label (h : WritingInv s) {w : Version} (hv : v ∈ s.store)
    (hw : w ∈ s.store) (he : v.vid = w.vid) : v = w :=
  List.inj_on_of_nodup_map h.nodup hv hw he

theorem WrittenFrom.of_endLabel (h : WritingInv s) {w : Version}
    (hw : s.store.find? (·.vid = label) = some w) (hv' : v' ∈ endLabel s.store label t) :
    WrittenFrom s t w.table v' := by
  obtain ⟨v, hv, rfl⟩ := mem_endLabel.mp hv'
  have hwl : w.vid = label := by simpa using List.find?_some hw
  split
  · rename_i hvl
    obtain rfl := h.eq_of_label hv (List.mem_of_find?_eq_some hw) (hvl.trans hwl.symm)
    exact .inr (.inl ⟨v, hv, rfl, rfl⟩)
  · exact .inl hv

theorem WritingInv.step {e : Write} (h : WritingInv s) (hs : writeStep s e = some s') :
    WritingInv s' := by
  cases e with
  | insert t label table key row =>
    obtain ⟨⟨ht, hnew⟩, rfl⟩ := writeStep_insert_iff.mp hs
    refine h.push ht rfl rfl rfl rfl rfl (h.managed t ht).2 ?_ ?_
    · rw [List.map_append]
      refine nodup_append_label h.nodup fun hin => ?_
      obtain ⟨v, hv, he⟩ := List.mem_map.mp hin
      exact hnew v hv he
    · intro v' hv'
      rcases List.mem_append.mp hv' with hv | hv
      · exact .inl hv
      · exact .inr (.inr ⟨label, row, List.mem_singleton.mp hv⟩)
  | delete t label key =>
    obtain ⟨w, hw, ⟨ht, -⟩, rfl⟩ := writeStep_delete_iff.mp hs
    refine h.push ht rfl rfl rfl rfl rfl (h.managed t ht).2 ?_ ?_
    · rw [map_vid_endLabel]
      exact h.nodup
    · exact fun v' hv' => WrittenFrom.of_endLabel h hw hv'
  | update t label newLabel key newKey row =>
    obtain ⟨w, hw, ⟨ht, -, hnew⟩, rfl⟩ := writeStep_update_iff.mp hs
    refine h.push ht rfl rfl rfl rfl rfl (h.managed t ht).2 ?_ ?_
    · rw [List.map_append, map_vid_endLabel]
      refine nodup_append_label h.nodup fun hin => ?_
      obtain ⟨v, hv, he⟩ := List.mem_map.mp hin
      exact hnew v hv he
    · intro v' hv'
      rcases List.mem_append.mp hv' with hv | hv
      · exact WrittenFrom.of_endLabel h hw hv
      · exact .inr (.inr ⟨newLabel, row, List.mem_singleton.mp hv⟩)
  | commit t =>
    obtain ⟨ht, rfl⟩ := writeStep_commit_iff.mp hs
    refine ⟨h.nodup, h.signed, ?_, ?_, ?_⟩
    · exact fun u hu => h.id_pos u (Finset.mem_of_mem_erase hu)
    · intro u hu
      obtain ⟨hut, hu⟩ := Finset.mem_erase.mp hu
      simp only [update_of_ne hut]
      exact h.managed u hu
    · intro u hu v hv hstamp
      obtain ⟨hut, hu⟩ := Finset.mem_erase.mp hu
      simp only [update_of_ne hut, mem_tablesOfTxn_removeTxn hut]
      exact h.logged u hu v hv hstamp

theorem WritingInv.exec (h : WritingInv s) :
    ∀ {es : List Write}, Transition.exec writeStep s es = some s' → WritingInv s' := by
  intro es hs
  exact (Reaches.of_exec es (execOk_anyStep writeStep s es) hs).invariant
    (fun _ _ _ hinv _ he => hinv.step he) h

theorem leaveOut_append (ids : Finset Nat) (store : List Version) (v : Version) :
    leaveOut ids (store ++ [v]) = leaveOut ids store ++ (leaveOutVersion ids v).toList := by
  rw [leaveOut, List.filterMap_append]
  cases hv : leaveOutVersion ids v with
  | none => simp [leaveOut, hv]
  | some v' => simp [leaveOut, hv]

theorem mem_leaveOut (h : v' ∈ leaveOut ids store) : ∃ v ∈ store, leaveOutVersion ids v = some v' :=
  List.mem_filterMap.mp h

theorem leaveOutVersion_live (h0 : 0 ∉ ids) (hmin : v.row.xmin ∉ ids) (hmax : v.row.xmax = 0) :
    leaveOutVersion ids v = some v := by
  simp [leaveOutVersion, hmin, hmax, h0]

theorem leaveOut_endLabel_of_mem (h0 : 0 ∉ ids) (ht : t ∈ ids) (hmax : t ≤ uint64Max)
    (hlive : ∀ v ∈ store, v.vid = label → Signed v.row ∧ v.row.xmax = 0) :
    leaveOut ids (endLabel store label t) = leaveOut ids store := by
  unfold leaveOut endLabel
  rw [List.filterMap_map]
  apply List.filterMap_congr
  intro v hv
  simp only [comp_apply]
  split
  · rename_i hvl
    obtain ⟨hsigned, hzero⟩ := hlive v hv hvl
    have hback : (v.row.set "_xmax" (stdToString t)).set "_xmax" "0" = v.row := by
      rw [Row.set_set, hsigned.set_zero hzero]
    simp only [leaveOutVersion, Row.xmin_set_xmax, Row.xmax_set_xmax _ hmax, ht, if_true, hback,
      hzero, h0, if_false]
  · rfl

theorem leaveOut_endLabel_of_notMem (h0 : 0 ∉ ids) (ht : t ∉ ids) (hmax : t ≤ uint64Max)
    (hlive : ∀ v ∈ store, v.vid = label → v.row.xmax = 0 ∧ v.row.xmin ∉ ids) :
    leaveOut ids (endLabel store label t) = endLabel (leaveOut ids store) label t := by
  induction store with
  | nil => rfl
  | cons v store ih =>
    have ih := ih fun w hw => hlive w (.tail _ hw)
    by_cases hvl : v.vid = label
    · subst hvl
      obtain ⟨hzero, hmin⟩ := hlive v List.mem_cons_self rfl
      have hv := leaveOutVersion_live (v := v) h0 hmin hzero
      have hv' : leaveOutVersion ids { v with row := v.row.set "_xmax" (stdToString t) } =
          some { v with row := v.row.set "_xmax" (stdToString t) } := by
        simp only [leaveOutVersion, Row.xmin_set_xmax, Row.xmax_set_xmax _ hmax, hmin, ht, if_false]
      simp only [leaveOut, endLabel] at ih
      simp [leaveOut, endLabel, hv, hv', ih]
    · simp only [leaveOut, endLabel] at ih
      cases hv : leaveOutVersion ids v with
      | none => simp [leaveOut, endLabel, hvl, hv, ih]
      | some v' =>
        have hv'l : v'.vid ≠ label := by
          rw [(leaveOutVersion_table hv).2]
          exact hvl
        simp [leaveOut, endLabel, hvl, hv, hv'l, ih]

/-- `u` is `s` without the transactions `ids`. -/
structure Without (ids : Finset Nat) (s u : Writing) : Prop where
  store : u.store = leaveOut ids s.store
  opened : u.opened = s.opened

theorem WritingInv.zero_notMem (h : WritingInv s) (hids : ids ⊆ s.opened) : 0 ∉ ids := fun h0 =>
  absurd (h.id_pos 0 (hids h0)).1 (lt_irrefl 0)

/-- The version that a lock lets `t` end is live, signed and not created by one of the
others. -/
theorem WritingInv.ended (h : WritingInv s) (hids : ids ⊆ s.opened) (hend : s.mayEnd t label)
    (hv : v ∈ s.store) (hvl : v.vid = label) :
    Signed v.row ∧ v.row.xmax = 0 ∧ (t ∉ ids → v.row.xmin ∉ ids) := by
  obtain ⟨hlive, hcreator⟩ := hend v hv hvl
  have hsigned := h.signed v hv
  refine ⟨hsigned, hsigned.isVisible_iff.mp hlive, fun ht hmin => ?_⟩
  exact hcreator _ (hids hmin) (fun he => ht (he ▸ hmin)) rfl

variable {u : Writing}

theorem Without.step_of_mem {e : Write} (h : WritingInv s) (hw : Without ids s u)
    (hids : ids ⊆ s'.opened) (he : e.txn ∈ ids) (hs : writeStep s e = some s') :
    Without ids s' u := by
  cases e with
  | insert t label table key row =>
    obtain ⟨⟨ht, -⟩, rfl⟩ := writeStep_insert_iff.mp hs
    refine ⟨?_, hw.opened⟩
    have hmin : (row.tag t).xmin ∈ ids := by
      rw [row.xmin_tag (h.id_pos t ht).2]
      exact he
    simp only [leaveOut_append]
    rw [hw.store]
    simp [leaveOutVersion, hmin]
  | delete t label key =>
    obtain ⟨w, -, ⟨ht, hend⟩, rfl⟩ := writeStep_delete_iff.mp hs
    have he : t ∈ ids := he
    refine ⟨?_, hw.opened⟩
    rw [hw.store, leaveOut_endLabel_of_mem (h.zero_notMem hids) he (h.id_pos t ht).2]
    intro v hv hvl
    obtain ⟨hsigned, hzero, -⟩ := h.ended hids hend hv hvl
    exact ⟨hsigned, hzero⟩
  | update t label newLabel key newKey row =>
    obtain ⟨w, -, ⟨ht, hend, -⟩, rfl⟩ := writeStep_update_iff.mp hs
    have he : t ∈ ids := he
    refine ⟨?_, hw.opened⟩
    have hmin : (row.tag t).xmin ∈ ids := by
      rw [row.xmin_tag (h.id_pos t ht).2]
      exact he
    simp only [leaveOut_append]
    rw [hw.store, leaveOut_endLabel_of_mem (h.zero_notMem hids) he (h.id_pos t ht).2]
    · simp [leaveOutVersion, hmin]
    · intro v hv hvl
      obtain ⟨hsigned, hzero, -⟩ := h.ended hids hend hv hvl
      exact ⟨hsigned, hzero⟩
  | commit t =>
    obtain ⟨-, rfl⟩ := writeStep_commit_iff.mp hs
    exact absurd (hids he) (Finset.notMem_erase t s.opened)

theorem Without.find_label {w : Version} (h : WritingInv s) (hw : Without ids s u)
    (hids : ids ⊆ s.opened) (ht : t ∉ ids) (hend : s.mayEnd t label)
    (hfind : s.store.find? (·.vid = label) = some w) :
    u.store.find? (·.vid = label) = some w ∧ u.mayEnd t label := by
  have hwmem := List.mem_of_find?_eq_some hfind
  have hwl : w.vid = label := by simpa using List.find?_some hfind
  obtain ⟨-, hzero, hmin⟩ := h.ended hids hend hwmem hwl
  have hkeep := leaveOutVersion_live (h.zero_notMem hids) (hmin ht) hzero
  have honly : ∀ v' ∈ u.store, v'.vid = label → v' = w := by
    intro v' hv' hvl
    rw [hw.store] at hv'
    obtain ⟨v, hv, hvv⟩ := mem_leaveOut hv'
    have hvid := (leaveOutVersion_table hvv).2
    obtain rfl := h.eq_of_label hv hwmem (by rw [← hvid, hvl, hwl])
    rw [hkeep] at hvv
    exact (Option.some.inj hvv).symm
  have hmem : w ∈ u.store := by
    rw [hw.store]
    exact List.mem_filterMap.mpr ⟨w, hwmem, hkeep⟩
  refine ⟨?_, fun v' hv' hvl => ?_⟩
  · cases hu : u.store.find? (·.vid = label) with
    | none =>
      have := List.find?_eq_none.mp hu w hmem
      simp [hwl] at this
    | some v' =>
      have hv'l : v'.vid = label := by simpa using List.find?_some hu
      rw [honly v' (List.mem_of_find?_eq_some hu) hv'l]
  · obtain rfl := honly v' hv' hvl
    rw [hw.opened]
    exact hend v' hwmem hvl

theorem Without.fresh_label (hw : Without ids s u) (hnew : ∀ v ∈ s.store, v.vid ≠ label) :
    ∀ v ∈ u.store, v.vid ≠ label := by
  intro v' hv'
  rw [hw.store] at hv'
  obtain ⟨v, hv, hvv⟩ := mem_leaveOut hv'
  rw [(leaveOutVersion_table hvv).2]
  exact hnew v hv

theorem Without.step_of_notMem {e : Write} (h : WritingInv s) (hw : Without ids s u)
    (hids : ids ⊆ s.opened) (he : e.txn ∉ ids) (hs : writeStep s e = some s') :
    ∃ u', writeStep u e = some u' ∧ Without ids s' u' := by
  have h0 := h.zero_notMem hids
  have htag : ∀ {t label : Nat} {table : String} {row : Row}, t ∈ s.opened → t ∉ ids →
      leaveOutVersion ids ⟨label, table, row.tag t⟩ = some ⟨label, table, row.tag t⟩ := by
    intro t label table row ht hnot
    refine leaveOutVersion_live h0 ?_ (row.xmax_tag t)
    rw [row.xmin_tag (h.id_pos t ht).2]
    exact hnot
  have hending : ∀ {t label : Nat}, t ∈ s.opened → t ∉ ids → s.mayEnd t label →
      endLabel u.store label t = leaveOut ids (endLabel s.store label t) := by
    intro t label ht hnot hend
    rw [leaveOut_endLabel_of_notMem h0 hnot (h.id_pos t ht).2, ← hw.store]
    intro v hv hvl
    obtain ⟨-, hzero, hmin⟩ := h.ended hids hend hv hvl
    exact ⟨hzero, hmin hnot⟩
  cases e with
  | insert t label table key row =>
    obtain ⟨⟨ht, hnew⟩, rfl⟩ := writeStep_insert_iff.mp hs
    have he : t ∉ ids := he
    have hguard : t ∈ u.opened ∧ ∀ v ∈ u.store, v.vid ≠ label :=
      ⟨hw.opened ▸ ht, hw.fresh_label hnew⟩
    refine ⟨_, writeStep_insert_iff.mpr ⟨hguard, rfl⟩, ?_, hw.opened⟩
    simp only [leaveOut_append, htag ht he, ← hw.store, Option.toList_some]
  | delete t label key =>
    obtain ⟨w, hfind, ⟨ht, hend⟩, rfl⟩ := writeStep_delete_iff.mp hs
    have he : t ∉ ids := he
    obtain ⟨hfind', hend'⟩ := hw.find_label h hids he hend hfind
    have hguard : t ∈ u.opened ∧ u.mayEnd t label := ⟨hw.opened ▸ ht, hend'⟩
    exact ⟨_, writeStep_delete_iff.mpr ⟨w, hfind', hguard, rfl⟩, hending ht he hend, hw.opened⟩
  | update t label newLabel key newKey row =>
    obtain ⟨w, hfind, ⟨ht, hend, hnew⟩, rfl⟩ := writeStep_update_iff.mp hs
    have he : t ∉ ids := he
    obtain ⟨hfind', hend'⟩ := hw.find_label h hids he hend hfind
    have hguard : t ∈ u.opened ∧ u.mayEnd t label ∧ ∀ v ∈ u.store, v.vid ≠ newLabel :=
      ⟨hw.opened ▸ ht, hend', hw.fresh_label hnew⟩
    refine ⟨_, writeStep_update_iff.mpr ⟨w, hfind', hguard, rfl⟩, ?_, hw.opened⟩
    simp only [leaveOut_append, htag ht he, hending ht he hend, Option.toList_some]
  | commit t =>
    obtain ⟨ht, rfl⟩ := writeStep_commit_iff.mp hs
    have hguard : t ∈ u.opened := hw.opened ▸ ht
    refine ⟨_, writeStep_commit_iff.mpr ⟨hguard, rfl⟩, hw.store, ?_⟩
    simp only [hw.opened]

theorem opened_subset_of_exec {s s' : Writing} : ∀ {es : List Write},
    exec writeStep s es = some s' → s'.opened ⊆ s.opened
  | [], hs => by
      cases hs
      exact Finset.Subset.refl _
  | e :: es, hs => by
      obtain ⟨s₁, h₁, h₂⟩ := Option.bind_eq_some_iff.mp hs
      refine (opened_subset_of_exec h₂).trans ?_
      cases e with
      | insert t label table key row =>
        obtain ⟨-, rfl⟩ := writeStep_insert_iff.mp h₁
        exact Finset.Subset.refl _
      | delete t label key =>
        obtain ⟨-, -, -, rfl⟩ := writeStep_delete_iff.mp h₁
        exact Finset.Subset.refl _
      | update t label newLabel key newKey row =>
        obtain ⟨-, -, -, rfl⟩ := writeStep_update_iff.mp h₁
        exact Finset.Subset.refl _
      | commit t =>
        obtain ⟨-, rfl⟩ := writeStep_commit_iff.mp h₁
        exact Finset.erase_subset _ _

theorem exec_without : ∀ {s u : Writing} {es : List Write},
    WritingInv s → Without ids s u → ids ⊆ s'.opened → exec writeStep s es = some s' →
      ∃ u', exec writeStep u (es.filter fun e => e.txn ∉ ids) = some u' ∧ Without ids s' u'
  | s, u, [], _, hw, _, hs => by
      cases hs
      exact ⟨u, rfl, hw⟩
  | s, u, e :: es, h, hw, hids, hs => by
      obtain ⟨s₁, h₁, h₂⟩ := Option.bind_eq_some_iff.mp hs
      have hids₁ : ids ⊆ s₁.opened := hids.trans (opened_subset_of_exec h₂)
      by_cases he : e.txn ∈ ids
      · have hw₁ := hw.step_of_mem h hids₁ he h₁
        rw [List.filter_cons_of_neg (by simpa using he)]
        exact exec_without (h.step h₁) hw₁ hids h₂
      · have hids₀ : ids ⊆ s.opened := hids.trans (opened_subset_of_exec hs)
        obtain ⟨u₁, hu₁, hw₁⟩ := hw.step_of_notMem h hids₀ he h₁
        obtain ⟨u', hu', hw'⟩ := exec_without (h.step h₁) hw₁ hids h₂
        refine ⟨u', ?_, hw'⟩
        rw [List.filter_cons_of_pos (by simpa using he)]
        exact Option.bind_eq_some_iff.mpr ⟨u₁, hu₁, hu'⟩

theorem rowsIn_leaveOut_of_unstamped {name : String}
    (h : ∀ v ∈ store, v.table = name → v.row.xmin ∉ ids ∧ v.row.xmax ∉ ids) :
    rowsIn (leaveOut ids store) name = rowsIn store name := by
  rw [rowsIn_leaveOut, rowsIn, ← List.filterMap_eq_map]
  apply List.filterMap_congr
  intro v hv
  obtain ⟨hv, hn⟩ := List.mem_filter.mp hv
  obtain ⟨hmin, hmax⟩ := h v hv (by simpa using hn)
  rw [leaveOutVersion_row, if_neg hmin, if_neg hmax, comp_apply]

theorem filterMap_rowsIn {undo : Row → Option Row} (hsigned : ∀ v ∈ store, Signed v.row)
    (hundo : ∀ row, Signed row → undo row = if row.xmin ∈ ids then none
      else if row.xmax ∈ ids then some (row.set "_xmax" "0") else some row)
    (name : String) : (rowsIn store name).filterMap undo = rowsIn (leaveOut ids store) name := by
  rw [rowsIn_leaveOut, rowsIn, List.filterMap_map]
  apply List.filterMap_congr
  intro v hv
  rw [leaveOutVersion_row, comp_apply, hundo v.row (hsigned v (List.mem_filter.mp hv).1)]

theorem filterMap_undoRow (hsigned : ∀ v ∈ store, Signed v.row) (t : Nat) (name : String) :
    (rowsIn store name).filterMap (undoRow t) = rowsIn (leaveOut {t} store) name := by
  refine filterMap_rowsIn hsigned (fun row h => ?_) name
  simp only [undoRow_eq h, Finset.mem_singleton]

theorem undo_tables {names : List String} (hsigned : ∀ v ∈ store, Signed v.row)
    (hlogged : ∀ v ∈ store, v.row.xmin = t ∨ v.row.xmax = t → v.table ∈ names) (name : String) :
    (if name ∈ names then (rowsIn store name).filterMap (undoRow t) else rowsIn store name) =
      rowsIn (leaveOut {t} store) name := by
  split
  · exact filterMap_undoRow hsigned t name
  · rename_i hname
    refine (rowsIn_leaveOut_of_unstamped ?_).symm
    intro v hv hn
    simp only [Finset.mem_singleton]
    exact not_or.mp fun hstamp => hname (hn ▸ hlogged v hv hstamp)

theorem WritingInv.applyRollbackTables_eq (h : WritingInv s) (ht : t ∈ s.opened) (name : String) :
    applyRollbackTables s.tables (s.txns t) name = rowsIn (leaveOut {t} s.store) name := by
  rw [applyRollbackTables, (h.managed t ht).2]
  exact undo_tables h.signed (fun v hv hstamp => (h.logged t ht v hv hstamp).1) name

theorem WritingInv.recoverUncommitted_eq (h : WritingInv s) (ht : t ∈ s.opened) (name : String) :
    recoverUncommitted s.tables s.files.undo t name = rowsIn (leaveOut {t} s.store) name :=
  undo_tables h.signed (fun v hv hstamp => (h.logged t ht v hv hstamp).2) name

theorem WritingInv.saveCommitted_eq (h : WritingInv s) (openIds : Finset Nat) (keepTxn : Nat)
    (name : String) : saveCommitted openIds keepTxn (s.tables name) =
      rowsIn (leaveOut (openIds.erase keepTxn) s.store) name := by
  simp only [saveCommitted]
  split
  · exact filterMap_rowsIn h.signed (fun row hrow => savedRow_eq hrow) name
  · rename_i haffected
    refine (rowsIn_leaveOut_of_unstamped fun v hv hn => ?_).symm
    have hrow : v.row ∈ s.tables name :=
      List.mem_map.mpr ⟨v, List.mem_filter.mpr ⟨hv, by simpa using hn⟩, rfl⟩
    rw [← (h.signed v hv).txnIdOf_xmin, ← (h.signed v hv).txnIdOf_xmax]
    exact not_or.mp fun hstamp => haffected
      ⟨fun he => by simp [he] at hstamp, v.row, hrow, hstamp⟩

theorem leaveOutVersion_insert (ht : t ≠ 0) (v : Version) :
    (leaveOutVersion ids v).bind (leaveOutVersion {t}) = leaveOutVersion (insert t ids) v := by
  by_cases hmin : v.row.xmin ∈ ids
  · simp [leaveOutVersion, hmin]
  · by_cases hmax : v.row.xmax ∈ ids
    · have h0 : (0 : Nat) ≠ t := fun h => ht h.symm
      simp [leaveOutVersion, hmin, hmax, Row.xmin_set_xmax, Row.xmax_revived, h0]
    · simp [leaveOutVersion, hmin, hmax]

theorem leaveOut_insert (ht : t ≠ 0) (store : List Version) :
    leaveOut {t} (leaveOut ids store) = leaveOut (insert t ids) store := by
  unfold leaveOut
  rw [List.filterMap_filterMap]
  exact List.filterMap_congr fun v _ => leaveOutVersion_insert ht v

theorem leaveOut_empty (store : List Version) : leaveOut ∅ store = store := by
  have hsome : leaveOutVersion ∅ = some := by
    funext v
    simp [leaveOutVersion]
  rw [leaveOut, hsome, List.filterMap_some]

theorem stamps_of_leaveOutVersion (hsigned : Signed v.row) (h : leaveOutVersion ids v = some v') :
    Signed v'.row ∧ v'.row.xmin = v.row.xmin ∧ (v'.row.xmax = v.row.xmax ∨ v'.row.xmax = 0) := by
  unfold leaveOutVersion at h
  split at h
  · cases h
  · split at h
    · cases h
      exact ⟨hsigned.revive, Row.xmin_set_xmax _ _, .inr (Row.xmax_revived _)⟩
    · cases h
      exact ⟨hsigned, rfl, .inl rfl⟩

theorem WritingInv.rollback_leaveOut (h : WritingInv s) (ht : t ∈ s.opened) :
    applyRollbackTables (rowsIn (leaveOut ids s.store)) (s.txns t) =
      rowsIn (leaveOut (insert t ids) s.store) := by
  have hpos : t ≠ 0 := (h.id_pos t ht).1.ne'
  funext name
  rw [← leaveOut_insert hpos, applyRollbackTables, (h.managed t ht).2]
  refine undo_tables ?_ ?_ name
  · intro v' hv'
    obtain ⟨v, hv, he⟩ := mem_leaveOut hv'
    exact (stamps_of_leaveOutVersion (h.signed v hv) he).1
  · intro v' hv' hstamp
    obtain ⟨v, hv, he⟩ := mem_leaveOut hv'
    obtain ⟨-, hmin, hmax⟩ := stamps_of_leaveOutVersion (h.signed v hv) he
    rw [(leaveOutVersion_table he).1]
    refine (h.logged t ht v hv ?_).1
    rcases hstamp with hstamp | hstamp
    · exact .inl (hmin ▸ hstamp)
    · rcases hmax with hmax | hmax
      · exact .inr (hmax ▸ hstamp)
      · exact absurd (hstamp.symm.trans hmax) hpos

/-- The order in which the transactions are rolled back does not matter. -/
theorem WritingInv.rollbackInOrder_eq (h : WritingInv s) :
    ∀ {order : List Nat} {ids : Finset Nat}, (∀ t ∈ order, t ∈ s.opened) →
      rollbackInOrder (rowsIn (leaveOut ids s.store)) s.txns order =
        rowsIn (leaveOut (order.toFinset ∪ ids) s.store)
  | [], ids, _ => by simp [rollbackInOrder]
  | t :: order, ids, hsub => by
      rw [rollbackInOrder, h.rollback_leaveOut (hsub t List.mem_cons_self),
        h.rollbackInOrder_eq fun u hu => hsub u (.tail _ hu)]
      rw [List.toFinset_cons, Finset.insert_union, Finset.union_insert]

/-- The run without the writes of some open transactions exists, and its tables are those of
`leaveOut`. -/
theorem Writing.Fresh.exists_run_without {s₀ : Writing} {es : List Write} (h : s₀.Fresh)
    (hs : exec writeStep s₀ es = some s) (hids : ids ⊆ s.opened) :
    ∃ u, exec writeStep s₀ (es.filter fun e => e.txn ∉ ids) = some u ∧
      u.tables = rowsIn (leaveOut ids s.store) := by
  have hstart : Without ids s₀ s₀ := by
    refine ⟨?_, rfl⟩
    have hids₀ : ids ⊆ s₀.opened := hids.trans (opened_subset_of_exec hs)
    have hsome : ∀ v ∈ s₀.store, leaveOutVersion ids v = some v := by
      intro v hv
      have hmin : v.row.xmin ∉ ids := fun hin => (h.unwritten _ (hids₀ hin) v hv).1 rfl
      have hmax : v.row.xmax ∉ ids := fun hin => (h.unwritten _ (hids₀ hin) v hv).2 rfl
      rw [leaveOutVersion, if_neg hmin, if_neg hmax]
    rw [leaveOut, List.filterMap_congr hsome, List.filterMap_some]
  obtain ⟨u, hu, hw⟩ := exec_without h.inv hstart hids hs
  exact ⟨u, hu, by rw [Writing.tables, hw.store]⟩

/-- `apply_rollback`, the uncommitted branch of `recover_from_wal` and `save_committed` give
the tables of the run without the transaction; a file written while transactions are open
holds the tables after all of them are rolled back, in any order. -/
theorem undo_implementations_agree {s₀ s : Writing} {es : List Write} (h : s₀.Fresh)
    (hs : exec writeStep s₀ es = some s) :
    (∀ t ∈ s.opened, ∃ u, exec writeStep s₀ (es.filter fun e => e.txn ≠ t) = some u ∧
      applyRollbackTables s.tables (s.txns t) = u.tables ∧
      recoverUncommitted s.tables s.files.undo t = u.tables ∧
      ∀ name, saveCommitted {t} 0 (s.tables name) = u.tables name) ∧
    ∀ openIds ⊆ s.opened, ∀ keepTxn, ∃ u,
      exec writeStep s₀ (es.filter fun e => e.txn ∉ openIds.erase keepTxn) = some u ∧
      (∀ name, saveCommitted openIds keepTxn (s.tables name) = u.tables name) ∧
      ∀ order : List Nat, (∀ t, t ∈ order ↔ t ∈ openIds.erase keepTxn) →
        rollbackInOrder s.tables s.txns order = u.tables := by
  have hinv := h.inv.exec hs
  refine ⟨fun t ht => ?_, fun openIds hsub keepTxn => ?_⟩
  · have hone : ({t} : Finset Nat) ⊆ s.opened := Finset.singleton_subset_iff.mpr ht
    obtain ⟨u, hu, htables⟩ := h.exists_run_without hs hone
    have hpos : (0 : Nat) ≠ t := (hinv.id_pos t ht).1.ne
    refine ⟨u, by simpa using hu, ?_, ?_, fun name => ?_⟩
    · rw [htables]
      exact funext fun name => hinv.applyRollbackTables_eq ht name
    · rw [htables]
      exact funext fun name => hinv.recoverUncommitted_eq ht name
    · rw [htables, hinv.saveCommitted_eq, Finset.erase_eq_of_notMem (by simpa using hpos)]
  · have hids : openIds.erase keepTxn ⊆ s.opened := (Finset.erase_subset _ _).trans hsub
    obtain ⟨u, hu, htables⟩ := h.exists_run_without hs hids
    refine ⟨u, hu, fun name => ?_, fun order horder => ?_⟩
    · rw [htables, hinv.saveCommitted_eq]
    · have hset : order.toFinset ∪ ∅ = openIds.erase keepTxn := by
        ext t
        simp [horder]
      have hroll : rollbackInOrder (rowsIn (leaveOut ∅ s.store)) s.txns order =
          rowsIn (leaveOut (order.toFinset ∪ ∅) s.store) :=
        hinv.rollbackInOrder_eq fun t ht => hids ((horder t).mp ht)
      rw [leaveOut_empty, hset] at hroll
      rw [htables]
      exact hroll

/-- A table with one committed row, and transactions 2 and 3 open. -/
def twoOpen : Writing where
  store := [⟨0, "t", (Row.ofCells [("id", "1")]).tag 1⟩]
  opened := {2, 3}
  txns := fun t => { fresh with txnId := t, active := true }
  files := ⟨[], []⟩

/-- Transaction 2 updates the row and commits, 3 deletes the new version. -/
def updateThenDelete : List Write :=
  [.update 2 0 1 "1" "1" (Row.ofCells [("id", "1"), ("v", "a")]),
    .insert 3 2 "t" "5" (Row.ofCells [("id", "5")]), .commit 2, .delete 3 1 "1"]

theorem undo_implementations_agree_updateThenDelete :
    ∃ s, twoOpen.Fresh ∧ exec writeStep twoOpen updateThenDelete = some s ∧
      s.opened = {3} ∧ ∃ u, exec writeStep twoOpen
        (updateThenDelete.filter fun e => e.txn ≠ 3) = some u ∧
        applyRollbackTables s.tables (s.txns 3) = u.tables ∧
        recoverUncommitted s.tables s.files.undo 3 = u.tables ∧
        (∀ name, saveCommitted {3} 0 (s.tables name) = u.tables name) ∧
        rollbackInOrder s.tables s.txns [3] "t" = u.tables "t" := by
  have hfresh : twoOpen.Fresh := by
    refine ⟨by decide, ?_, by decide, fun t _ => ⟨rfl, rfl⟩, by decide⟩
    intro v hv
    obtain rfl : v = ⟨0, "t", (Row.ofCells [("id", "1")]).tag 1⟩ := List.mem_singleton.mp hv
    have hone : 1 ≤ uint64Max := by decide
    exact Signed.tag (Row.ofCells [("id", "1")]) hone
  obtain ⟨s, hs⟩ : ∃ s, exec writeStep twoOpen updateThenDelete = some s :=
    Option.isSome_iff_exists.mp (by decide)
  have hopened : (exec writeStep twoOpen updateThenDelete).map (·.opened) = some {3} := by decide
  rw [hs, Option.map_some, Option.some.injEq] at hopened
  obtain ⟨hone, hall⟩ := undo_implementations_agree hfresh hs
  obtain ⟨u, hu, hrollback, hrecover, hsave⟩ := hone 3 (by simp [hopened])
  obtain ⟨u', hu', -, horder⟩ := hall {3} (by simp [hopened]) 0
  have hsame : u' = u := by
    have hset : (({3} : Finset Nat).erase 0) = {3} := by decide
    simp only [hset, Finset.mem_singleton] at hu'
    exact Option.some.inj (hu'.symm.trans hu)
  refine ⟨s, hfresh, hs, hopened, u, hu, hrollback, hrecover, hsave, ?_⟩
  rw [horder [3] (by simp), hsame]

end RusqlEngine
