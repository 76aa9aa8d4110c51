import RusqlEngine.Autocommit

/-!
# What a crash after a statement leaves

The files and the log give back the live rows of every table as long as no file is written over
while operations to be replayed on it contradict it. The invariant is about each table and each
image: replaying the log, and what the statement has not written yet, leaves as many live copies as
there are in memory.
-/

namespace RusqlEngine

open CountedReplay

namespace Server

/-- The tables after a start that loads the files and replays the log. -/
def recovered (s : Server) : TableStore := fun name =>
  (s.files name).bind fun file =>
    (recoverFromRedo (fun n => (s.files n).map (·.rows)) s.redoLog name).map fun rows =>
      { file with rows := rows }

def contents (data : TableData) : TableSchema × List (String × Int) × Multiset Row :=
  (data.schema, data.autoIncrementCounters, liveImages data.rows)

def SurvivesCrash (s : Server) : Prop :=
  ∀ name, (s.recovered name).map contents = (s.tables name).map contents

def pending (s : Server) (name : String) : List (Op Row String) :=
  s.redoOps.filterMap (opFor name)

def replayed (s : Server) (name : String) : List (Op Row String) :=
  opsOf name s.redoLog ++ s.pending name

def Agrees (rows : List Row) (ops : List (Op Row String)) : Prop :=
  liveImages (replay rowVersions rows ops) = liveImages rows

instance (rows : List Row) (ops : List (Op Row String)) : Decidable (Agrees rows ops) :=
  inferInstanceAs (Decidable (_ = _))

/-- No operation still to be replayed on a file that the step writes contradicts it; a vacuum writes
a marker, so that those in the log do not. No row is logged and not stored. -/
def Settled (s : Server) : WriteStep → Prop
  | .log _ _ _ => False
  | .flush table => ∀ data, s.tables table = some data → Agrees data.rows (s.replayed table)
  | .vacuum table => ∀ data, s.tables table = some data →
      (s.vacuumed data.rows).length < data.rows.length →
        Agrees (s.vacuumed data.rows) (s.pending table)
  | .alter table _ _ change => ∀ data, s.tables table = some data →
      Agrees (data.rows.map change.1) (s.replayed table)
  | .create table _ _ => s.tables table = none → Agrees [] (s.replayed table)
  | .truncate table => ∀ data, s.tables table = some data →
      data.autoIncrementCounters = [] ∧ Agrees [] (s.replayed table)
  | .rename table target _ => ∀ data, s.tables table = some data → s.tables target = none →
      Agrees data.rows (s.replayed target)
  | _ => True

def SettledAll : Server → List WriteStep → Prop
  | _, [] => True
  | s, step :: steps => s.Settled step ∧ SettledAll (s.runStep step) steps

/-- The writes of all actions of a statement are settled. -/
def SettledActions (covered : Bool) : Server → List StmtAction → Prop
  | _, [] => True
  | s, action :: actions =>
    SettledAll s (action.steps covered s.nextId) ∧
      SettledActions covered (s.runAction covered action) actions

/-- The writes of all statements of a run are settled, and an exception ends none that has gathered
operations. -/
def SettledRun (r : Routines) : Server → List Executed → Prop
  | _, [] => True
  | s, e :: run =>
    SettledActions (coveredStmt r e) (s.prepare r e) e.actions ∧
      (e.thrown → (s.runActions r e).redoOps = []) ∧ SettledRun r (s.execute r e) run

end Server

def Executed.Permitted (r : Routines) (e : Executed) : Prop :=
  ∀ action ∈ e.actions, r.MayDo e.stmt action

/-- No stamp of the row is an id that is still to be handed out, or empty. -/
structure OlderRow (n : Nat) (row : Row) : Prop where
  xmin : ∀ k, n ≤ k → row.find "_xmin" ≠ some (stdToString k)
  xmax : ∀ k, n ≤ k → row.find "_xmax" ≠ some (stdToString k)
  stamped : row.find "_xmax" ≠ some ""

/-- The operation is on an older version, which it adds live or ends. -/
structure OlderOp (n : Nat) (op : RedoOp) : Prop where
  xmin : ∀ k, n ≤ k → op.data.find "_xmin" ≠ some (stdToString k)
  xmax : ∀ k, n ≤ k → op.xmax ≠ stdToString k
  adds : op.kind = .insertVersion → op.data.find "_xmax" = some "0"
  ends : op.kind = .setXmax → op.xmax ≠ "0"

/-- The server after a start. -/
structure Server.Loaded (s : Server) : Prop where
  files_eq : s.files = s.tables
  redoLog_eq : s.redoLog = []
  redoOps_eq : s.redoOps = []
  nextId_pos : 0 < s.nextId
  older : ∀ name data, s.tables name = some data → ∀ row ∈ data.rows, OlderRow s.nextId row

/-- What holds after every write. -/
structure Server.Logged (s : Server) : Prop where
  pos : 0 < s.nextId
  header_eq : ∀ name, (s.files name).map (fun d => (d.schema, d.autoIncrementCounters)) =
    (s.tables name).map fun d => (d.schema, d.autoIncrementCounters)
  alive_eq : ∀ name file data, s.files name = some file → s.tables name = some data → ∀ i,
    outcome rowVersions i file.rows (s.replayed name) = alive rowVersions i data.rows
  filed : ∀ name file, s.files name = some file → ∀ row ∈ file.rows, OlderRow s.nextId row
  held : ∀ name data, s.tables name = some data → ∀ row ∈ data.rows, OlderRow s.nextId row
  logOlder : ∀ op ∈ s.redoLog, OlderOp s.nextId op
  opsOlder : ∀ op ∈ s.redoOps, OlderOp s.nextId op
  filled : ∀ op ∈ s.redoLog, op.kind = .setXmax → op.xmax ≠ ""
  unmarked : ∀ op ∈ s.redoOps, op.kind ≠ .tableFlushed
  dirty : ∀ op ∈ s.redoLog, op.kind ≠ .tableFlushed → op.table ∈ s.redoDirty

theorem stdToString_ne_empty (k : Nat) : stdToString k ≠ "" := by
  intro h
  have hscan := scanUll_stdToString k
  have hnone : scanUll "" = none := by decide
  rw [h, hnone] at hscan
  exact nomatch hscan

variable {n : Nat}

theorem stdToString_ne_zero {k : Nat} (hn : 0 < n) (hk : n ≤ k) : stdToString k ≠ "0" := by
  intro h
  have := stdToString_eq_zero_iff.mp h
  omega

variable {row : Row}

theorem OlderRow.mono {m : Nat} (h : OlderRow n row) (hle : n ≤ m) : OlderRow m row :=
  ⟨fun k hk => h.xmin k (hle.trans hk), fun k hk => h.xmax k (hle.trans hk), h.stamped⟩

variable {op : RedoOp}

theorem OlderOp.mono {m : Nat} (h : OlderOp n op) (hle : n ≤ m) : OlderOp m op :=
  ⟨fun k hk => h.xmin k (hle.trans hk), fun k hk => h.xmax k (hle.trans hk), h.adds, h.ends⟩

variable {id : Nat}

theorem OlderRow.tag (hn : 0 < n) (hid : id < n) (row : Row) :
    OlderRow n (row.tag id) where
  xmin k hk := by
    rw [Row.find_tag_xmin]
    intro he
    have := stdToString_injective (Option.some.inj he)
    omega
  xmax k hk := by
    rw [Row.find_tag_xmax]
    intro he
    exact stdToString_ne_zero hn hk (Option.some.inj he).symm
  stamped := by
    rw [Row.find_tag_xmax]
    decide

theorem OlderRow.end (h : OlderRow n row) (hid : id < n) :
    OlderRow n (row.set "_xmax" (stdToString id)) where
  xmin k hk := by
    rw [Row.find_set_of_ne _ _ (by decide)]
    exact h.xmin k hk
  xmax k hk := by
    rw [Row.find_set]
    intro he
    have := stdToString_injective (Option.some.inj he)
    omega
  stamped := by
    rw [Row.find_set]
    exact fun he => stdToString_ne_empty id (Option.some.inj he)

theorem OlderRow.change (h : OlderRow n row) (change : RowChange) :
    OlderRow n (change.1 row) where
  xmin k hk := by
    rw [(change.2 row).1]
    exact h.xmin k hk
  xmax k hk := by
    rw [(change.2 row).2]
    exact h.xmax k hk
  stamped := by
    rw [(change.2 row).2]
    exact h.stamped

theorem olderOp_flushedMarker (n : Nat) (table : String) : OlderOp n (flushedMarker table) where
  xmin _ _ he := nomatch he
  xmax k _ := (stdToString_ne_empty k).symm
  adds hkind := nomatch hkind
  ends hkind := nomatch hkind

theorem mem_keptOps : ∀ {log : List RedoOp}, op ∈ keptOps log → op ∈ log
  | [], h => nomatch h
  | first :: log, h => by
      rw [keptOps] at h
      split at h
      · exact List.mem_cons_of_mem _ (mem_keptOps h)
      · rcases List.mem_cons.mp h with rfl | h
        · exact List.mem_cons_self
        · exact List.mem_cons_of_mem _ (mem_keptOps h)

theorem opFor_eq_insert {name : String} (h : opFor name op = some (.insert row)) :
    op.kind = .insertVersion ∧ op.data = row := by
  rw [opFor] at h
  split at h
  · cases hkind : op.kind with
    | insertVersion =>
      simp only [hkind, Option.some.injEq, Op.insert.injEq] at h
      exact ⟨rfl, h⟩
    | setXmax => simp [hkind] at h
    | tableFlushed => simp [hkind] at h
  · cases h

variable {x : String}

theorem opFor_eq_kill {name : String} (h : opFor name op = some (.kill row x)) :
    op.kind = .setXmax ∧ op.data = row ∧ op.xmax = x := by
  rw [opFor] at h
  split at h
  · cases hkind : op.kind with
    | insertVersion => simp [hkind] at h
    | setXmax =>
      simp only [hkind, Option.some.injEq, Op.kill.injEq] at h
      exact ⟨rfl, h.1, h.2⟩
    | tableFlushed => simp [hkind] at h
  · cases h

namespace Server

variable {s : Server}

theorem exists_of_mem_replayed {name : String} {op : Op Row String} (h : op ∈ s.replayed name) :
    ∃ logged, (logged ∈ s.redoLog ∨ logged ∈ s.redoOps) ∧ opFor name logged = some op := by
  rcases List.mem_append.mp h with h | h
  · obtain ⟨logged, hmem, hop⟩ := List.mem_filterMap.mp h
    exact ⟨logged, .inl (mem_keptOps hmem), hop⟩
  · obtain ⟨logged, hmem, hop⟩ := List.mem_filterMap.mp h
    exact ⟨logged, .inr hmem, hop⟩

theorem Logged.older (h : s.Logged) (hop : op ∈ s.redoLog ∨ op ∈ s.redoOps) : OlderOp s.nextId op :=
  hop.elim (h.logOlder op) (h.opsOlder op)

variable {ops : List (Op Row String)}

theorem wellLogged_of_older
    (h : ∀ op ∈ ops, ∃ name logged, OlderOp n logged ∧ opFor name logged = some op) :
    WellLogged rowVersions ops := by
  intro op hop
  obtain ⟨name, logged, holder, hfor⟩ := h op hop
  cases op with
  | insert row =>
    obtain ⟨hkind, rfl⟩ := opFor_eq_insert hfor
    exact holder.adds hkind
  | kill row x =>
    obtain ⟨hkind, -, rfl⟩ := opFor_eq_kill hfor
    exact holder.ends hkind

theorem Logged.wellLogged (h : s.Logged) (name : String) :
    WellLogged rowVersions (s.replayed name) := by
  apply wellLogged_of_older (n := s.nextId)
  intro op hop
  obtain ⟨logged, hmem, hfor⟩ := exists_of_mem_replayed hop
  exact ⟨name, logged, h.older hmem, hfor⟩

theorem Logged.wellLogged_pending (h : s.Logged) (name : String) :
    WellLogged rowVersions (s.pending name) := fun op hop =>
  h.wellLogged name op (List.mem_append_right _ hop)

variable {rows : List Row}

theorem agrees_iff (h : WellLogged rowVersions ops) :
    Agrees rows ops ↔ ∀ i, outcome rowVersions i rows ops = alive rowVersions i rows := by
  rw [Agrees, liveImages_eq_iff]
  exact forall_congr' fun i => by rw [alive_replay h]

theorem Logged.survivesCrash (h : s.Logged) (hops : s.redoOps = []) : s.SurvivesCrash := by
  intro name
  have hheader := h.header_eq name
  have hreplayed : s.replayed name = opsOf name s.redoLog := by
    rw [replayed, pending, hops, List.filterMap_nil, List.append_nil]
  cases hfile : s.files name with
  | none =>
    rw [hfile] at hheader
    cases hdata : s.tables name with
    | none => simp [recovered, hfile]
    | some data =>
      rw [hdata] at hheader
      exact nomatch hheader
  | some file =>
    rw [hfile] at hheader
    cases hdata : s.tables name with
    | none =>
      rw [hdata] at hheader
      exact nomatch hheader
    | some data =>
      rw [hdata] at hheader
      obtain ⟨hschema, hcounters⟩ := Prod.ext_iff.mp (Option.some.inj hheader)
      have hlive : liveImages (replay rowVersions file.rows (opsOf name s.redoLog)) =
          liveImages data.rows := by
        rw [liveImages_eq_iff, ← hreplayed]
        intro i
        rw [alive_replay (h.wellLogged name)]
        exact h.alive_eq name file data hfile hdata i
      simp only [recovered, hfile, recoverFromRedo, Option.bind_some, Option.map_some, contents,
        hlive]
      rw [show file.schema = data.schema from hschema,
        show file.autoIncrementCounters = data.autoIncrementCounters from hcounters]

section

variable {store : TableStore} {name table : String}

@[simp] theorem put_self (data : Option TableData) : store.put name data name = data :=
  if_pos rfl

theorem put_of_ne (data : Option TableData) (h : name ≠ table) :
    store.put table data name = store name :=
  if_neg h

theorem putRows_of_ne (rows : List Row) (h : name ≠ table) :
    store.putRows table rows name = store name :=
  put_of_ne _ h

theorem putRows_self (rows : List Row) :
    store.putRows name rows name = (store name).map fun data => { data with rows := rows } :=
  put_self _

theorem put_eq_self {data : Option TableData}
    (h : store name = data) : store.put name data = store := by
  funext n
  by_cases hn : n = name
  · rw [hn, put_self, h]
  · exact put_of_ne _ hn

end

theorem Logged.exists_file (h : s.Logged) {name : String} {data : TableData}
    (hdata : s.tables name = some data) :
    ∃ file, s.files name = some file ∧ file.schema = data.schema ∧
      file.autoIncrementCounters = data.autoIncrementCounters := by
  have hheader := h.header_eq name
  rw [hdata] at hheader
  cases hfile : s.files name with
  | none =>
    rw [hfile] at hheader
    exact nomatch hheader
  | some file =>
    rw [hfile] at hheader
    obtain ⟨hschema, hcounters⟩ := Prod.ext_iff.mp (Option.some.inj hheader)
    exact ⟨file, rfl, hschema, hcounters⟩

/-- A write of rows in memory, with the operations that it logs. -/
def logRows (s : Server) (table : String) (rows : List Row) (ops : List RedoOp) : Server :=
  { s with tables := s.tables.putRows table rows, redoOps := s.redoOps ++ ops }

theorem replayed_logRows (table : String) (rows : List Row) (ops : List RedoOp) (name : String) :
    (s.logRows table rows ops).replayed name = s.replayed name ++ ops.filterMap (opFor name) := by
  rw [replayed, replayed, pending, pending, List.append_assoc, ← List.filterMap_append]
  rfl

theorem filterMap_opFor_of_ne {table name : String} {ops : List RedoOp}
    (htable : ∀ op ∈ ops, op.table = table) (h : name ≠ table) :
    ops.filterMap (opFor name) = [] := by
  rw [List.filterMap_eq_nil_iff]
  intro op hop
  rw [opFor, if_neg]
  rw [htable op hop]
  exact Ne.symm h

/-- The rows and the operations of a write balance. -/
structure Balanced (s : Server) (table : String) (data : TableData) (rows : List Row)
    (ops : List RedoOp) : Prop where
  table_eq : ∀ op ∈ ops, op.table = table
  unmarked : ∀ op ∈ ops, op.kind ≠ .tableFlushed
  older : ∀ op ∈ ops, OlderOp s.nextId op
  held : ∀ row ∈ rows, OlderRow s.nextId row
  alive_eq : ∀ file, s.files table = some file → ∀ i,
    outcome rowVersions i file.rows (s.replayed table) = alive rowVersions i data.rows →
    outcome rowVersions i file.rows (s.replayed table ++ ops.filterMap (opFor table)) =
      alive rowVersions i rows

theorem Logged.logRows (h : s.Logged) {table : String} {data : TableData}
    (hdata : s.tables table = some data) {rows : List Row} {ops : List RedoOp}
    (hb : s.Balanced table data rows ops) : (s.logRows table rows ops).Logged where
  pos := h.pos
  header_eq name := by
    refine (h.header_eq name).trans ?_
    by_cases hname : name = table
    · subst hname
      simp [Server.logRows, putRows_self, hdata]
    · simp [Server.logRows, putRows_of_ne _ hname]
  alive_eq name file data' hfile hdata' i := by
    rw [replayed_logRows]
    by_cases hname : name = table
    · subst hname
      have heq : data' = { data with rows := rows } := by
        have hput : (s.logRows name rows ops).tables name = some { data with rows := rows } := by
          simp [Server.logRows, putRows_self, hdata]
        exact Option.some.inj (hdata'.symm.trans hput)
      rw [heq]
      exact hb.alive_eq file hfile i (h.alive_eq name file data hfile hdata i)
    · have hsame : s.tables name = some data' := by
        rw [← hdata']
        exact (putRows_of_ne _ hname).symm
      rw [filterMap_opFor_of_ne hb.table_eq hname, List.append_nil]
      exact h.alive_eq name file data' hfile hsame i
  filed := h.filed
  held name data' hdata' row hrow := by
    by_cases hname : name = table
    · subst hname
      have hput : (s.logRows name rows ops).tables name = some { data with rows := rows } := by
        simp [Server.logRows, putRows_self, hdata]
      rw [Option.some.inj (hdata'.symm.trans hput)] at hrow
      exact hb.held row hrow
    · exact h.held name data' ((putRows_of_ne _ hname).symm.trans hdata') row hrow
  logOlder := h.logOlder
  opsOlder op hop := (List.mem_append.mp hop).elim (h.opsOlder op) (hb.older op)
  filled := h.filled
  unmarked op hop := (List.mem_append.mp hop).elim (h.unmarked op) (hb.unmarked op)
  dirty := h.dirty

/-- A table whose memory and files are written together; the log may get a marker. -/
theorem Logged.putBoth (h : s.Logged) {table : String} {data : Option TableData}
    {log : List RedoOp} (hlog : log = s.redoLog ∨ log = s.redoLog ++ [flushedMarker table])
    (hheld : ∀ d, data = some d → ∀ row ∈ d.rows, OlderRow s.nextId row)
    (hsettled : ∀ d, data = some d → ∀ i,
      outcome rowVersions i d.rows (opsOf table log ++ s.pending table) =
        alive rowVersions i d.rows) :
    { s with
      tables := s.tables.put table data
      files := s.files.put table data
      redoLog := log }.Logged where
  pos := h.pos
  header_eq name := by
    by_cases hname : name = table
    · subst hname
      simp
    · simp only [put_of_ne _ hname]
      exact h.header_eq name
  alive_eq name file data' hfile hdata' i := by
    by_cases hname : name = table
    · subst hname
      simp only [put_self] at hfile hdata'
      rw [hfile] at hdata'
      cases hdata'
      exact hsettled file hfile i
    · simp only [put_of_ne _ hname] at hfile hdata'
      have hops : opsOf name log = opsOf name s.redoLog := by
        rcases hlog with rfl | rfl
        · rfl
        · rw [opsOf_flushedMarker, if_neg hname]
      have := h.alive_eq name file data' hfile hdata' i
      rw [replayed] at this ⊢
      rw [← this, ← hops]
      rfl
  filed name file hfile row hrow := by
    by_cases hname : name = table
    · subst hname
      simp only [put_self] at hfile
      exact hheld file hfile row hrow
    · simp only [put_of_ne _ hname] at hfile
      exact h.filed name file hfile row hrow
  held name data' hdata' row hrow := by
    by_cases hname : name = table
    · subst hname
      simp only [put_self] at hdata'
      exact hheld data' hdata' row hrow
    · simp only [put_of_ne _ hname] at hdata'
      exact h.held name data' hdata' row hrow
  logOlder op hop := by
    rcases hlog with rfl | rfl
    · exact h.logOlder op hop
    · rcases List.mem_append.mp hop with hop | hop
      · exact h.logOlder op hop
      · rw [List.mem_singleton.mp hop]
        exact olderOp_flushedMarker s.nextId table
  opsOlder := h.opsOlder
  filled op hop := by
    rcases hlog with rfl | rfl
    · exact h.filled op hop
    · rcases List.mem_append.mp hop with hop | hop
      · exact h.filled op hop
      · rw [List.mem_singleton.mp hop]
        exact nofun
  unmarked := h.unmarked
  dirty op hop := by
    rcases hlog with rfl | rfl
    · exact h.dirty op hop
    · rcases List.mem_append.mp hop with hop | hop
      · exact h.dirty op hop
      · rw [List.mem_singleton.mp hop]
        exact fun hk => (hk rfl).elim

variable {old : Row}

theorem alive_append_tag (i : Row) (rows : List Row) (row : Row) (id : Nat) :
    alive rowVersions i (rows ++ [row.tag id]) =
      alive rowVersions i rows + if versionIdentity (row.tag id) = i then 1 else 0 := by
  have hlive : live rowVersions (row.tag id) := live_of_stamp (Row.find_tag_xmax row id)
  rw [alive, alive, List.countP_append, List.countP_singleton]
  simp [hlive]

theorem alive_set_ended {pos : Nat} (hold : rows[pos]? = some old) (hvisible : isVisible old)
    (hid : 0 < id) (i : Row) :
    alive rowVersions i rows =
      alive rowVersions i (rows.set pos (old.set "_xmax" (stdToString id))) +
        if versionIdentity old = i then 1 else 0 := by
  obtain ⟨hlt, hget⟩ := List.getElem?_eq_some_iff.mp hold
  have hdead : live rowVersions (old.set "_xmax" (stdToString id)) = false :=
    live_kill (V := rowVersions) (fun he => absurd (stdToString_eq_zero_iff.mp he) (by omega)) old
  have hsplit : rows = rows.take pos ++ old :: rows.drop (pos + 1) := by
    rw [← hget, List.cons_getElem_drop_succ, List.take_append_drop]
  have hset : rows.set pos (old.set "_xmax" (stdToString id)) =
      rows.take pos ++ old.set "_xmax" (stdToString id) :: rows.drop (pos + 1) := by
    rw [List.set_eq_take_append_cons_drop, if_pos hlt]
  rw [hset]
  conv_lhs => rw [hsplit]
  rw [alive, alive, List.countP_append, List.countP_append, List.countP_cons, List.countP_cons,
    hdead,
    live_rowVersions, hvisible]
  simp only [rowVersions_ident, Bool.and_true, Bool.and_false, beq_iff_eq, Bool.false_eq_true,
    if_false, Nat.add_zero, Nat.add_assoc]

theorem alive_keptRows (rows : List Row) (chosen : Nat → Bool) (i : Row) :
    alive rowVersions i rows = alive rowVersions i (keptRows rows chosen) +
      (goneRows rows chosen).countP fun row => versionIdentity row == i := by
  set out : Row × Nat → Bool := fun p => chosen p.2 && isVisible p.1 with hout
  have hgone : (goneRows rows chosen).countP (fun row => versionIdentity row == i) =
      alive rowVersions i (goneRows rows chosen) := by
    rw [goneRows, alive, List.countP_map, List.countP_map, List.countP_filter, List.countP_filter]
    apply List.countP_congr
    intro p _
    simp only [Function.comp_apply, live_rowVersions, rowVersions_ident, Bool.and_eq_true]
    tauto
  have hperm : (rows.zipIdx.filter out ++ rows.zipIdx.filter fun p => !out p).Perm rows.zipIdx :=
    List.filter_append_perm ..
  have hrows : (goneRows rows chosen ++ keptRows rows chosen).Perm rows := by
    have := hperm.map (·.1)
    rwa [List.map_append, List.zipIdx_map_fst] at this
  rw [hgone, Nat.add_comm]
  rw [alive, ← hrows.countP_eq, List.countP_append]
  rfl

/-- No row of the file bears the id, and the versions that bear it have all been logged since. -/
def Fresh (s : Server) (table : String) (id : Nat) : Prop :=
  ∀ file, s.files table = some file →
    (∀ row ∈ file.rows, row.find "_xmax" ≠ some (stdToString id)) ∧
      ∀ i : Row, i.find "_xmin" = some (stdToString id) →
        Unfiled rowVersions i file.rows (s.replayed table)

theorem find_xmin_versionIdentity (row : Row) :
    (versionIdentity row).find "_xmin" = row.find "_xmin" :=
  find_versionIdentity (by decide)

theorem Logged.fresh (h : s.Logged) (hid : s.nextId ≤ id) (table : String) : s.Fresh table id := by
  intro file hfile
  refine ⟨fun row hrow => (h.filed table file hfile row hrow).xmax id hid, fun i hi => ⟨?_, ?_⟩⟩
  · rw [copies, List.countP_eq_zero]
    intro row hrow
    simp only [rowVersions_ident, beq_iff_eq]
    rintro rfl
    exact (h.filed table file hfile row hrow).xmin id hid
      ((find_xmin_versionIdentity row).symm.trans hi)
  · rw [effective_eq_zero]
    · exact Nat.zero_le _
    · rintro row x hkill rfl
      obtain ⟨op, hmem, hfor⟩ := exists_of_mem_replayed hkill
      obtain ⟨-, rfl, -⟩ := opFor_eq_kill hfor
      exact (h.older hmem).xmin id hid ((find_xmin_versionIdentity op.data).symm.trans hi)

theorem ended_eq_zero (h : ∀ row ∈ rows, row.find "_xmax" ≠ some x) (i : Row) :
    ended rowVersions i x rows = 0 := by
  rw [ended, List.countP_eq_zero]
  intro row hrow
  simp [h row hrow]

section

variable {table : String} {data : TableData}

theorem olderOp_insert (h : s.Logged) (hid : id < s.nextId) (row : Row) :
    OlderOp s.nextId ⟨.insertVersion, table, row.tag id, ""⟩ where
  xmin := (OlderRow.tag h.pos hid row).xmin
  xmax k _ := (stdToString_ne_empty k).symm
  adds _ := Row.find_tag_xmax row id
  ends hkind := nomatch hkind

theorem olderOp_kill (hold : OlderRow n old) (hx : ∀ k, n ≤ k → x ≠ stdToString k)
    (hzero : x ≠ "0") : OlderOp n ⟨.setXmax, table, old, x⟩ where
  xmin := hold.xmin
  xmax := hx
  adds hkind := nomatch hkind
  ends _ := hzero

theorem Logged.balanced_insert (h : s.Logged) (hdata : s.tables table = some data)
    (hid : id < s.nextId) (hfresh : s.Fresh table id) (row : Row) :
    s.Balanced table data (data.rows ++ [row.tag id])
      [⟨.insertVersion, table, row.tag id, ""⟩] where
  table_eq op hop := by
    rw [List.mem_singleton.mp hop]
  unmarked op hop := by
    rw [List.mem_singleton.mp hop]
    exact nofun
  older op hop := by
    rw [List.mem_singleton.mp hop]
    exact olderOp_insert h hid row
  held r hr := by
    rcases List.mem_append.mp hr with hr | hr
    · exact h.held table data hdata r hr
    · rw [List.mem_singleton.mp hr]
      exact OlderRow.tag h.pos hid row
  alive_eq file hfile i hi := by
    have hops : [(⟨.insertVersion, table, row.tag id, ""⟩ : RedoOp)].filterMap (opFor table) =
        [.insert (row.tag id)] := by simp [opFor]
    rw [hops, alive_append_tag, ← hi]
    by_cases hrow : versionIdentity (row.tag id) = i
    · rw [if_pos hrow, ← hrow]
      refine outcome_append_insert (V := rowVersions) ((hfresh file hfile).2 _ ?_)
      rw [rowVersions_ident, find_xmin_versionIdentity, Row.find_tag_xmin]
    · rw [if_neg hrow]
      exact outcome_append_insert_of_ne (V := rowVersions) hrow

/-- The operations of a rewritten version. -/
def rewriteOps (table : String) (old row : Row) (id : Nat) : List RedoOp :=
  [⟨.setXmax, table, old, stdToString id⟩, ⟨.insertVersion, table, row.tag id, ""⟩]

theorem opFor_rewriteOps (old row : Row) (id : Nat) :
    (rewriteOps table old row id).filterMap (opFor table) =
      [.kill old (stdToString id)] ++ [.insert (row.tag id)] := by
  simp [rewriteOps, opFor]

theorem Logged.outcome_pos (h : s.Logged) (hdata : s.tables table = some data) {file : TableData}
    (hfile : s.files table = some file) (hrow : row ∈ data.rows) (hvisible : isVisible row) :
    0 < outcome rowVersions (versionIdentity row) file.rows (s.replayed table) := by
  rw [h.alive_eq table file data hfile hdata, alive, List.countP_pos_iff]
  refine ⟨row, hrow, ?_⟩
  simp [live_rowVersions, hvisible]

theorem Unfiled.rewrite {i : Row} (h : Unfiled rowVersions i rows ops)
    (hpos : 0 < outcome rowVersions (versionIdentity old) rows ops) :
    Unfiled rowVersions i rows (ops ++ ([.kill old x] ++ [.insert row])) := by
  rw [← List.append_assoc]
  refine (CountedReplay.Unfiled.append_kill h fun he => ?_).append_insert
  rw [rowVersions_ident] at he
  exact he ▸ hpos

theorem Logged.balanced_rewrite (h : s.Logged) (hdata : s.tables table = some data) {pos : Nat}
    (hid : id < s.nextId) (hidpos : 0 < id) (hfresh : s.Fresh table id)
    (hold : data.rows[pos]? = some old) (hvisible : isVisible old) (row : Row) :
    s.Balanced table data
      (data.rows.set pos (old.set "_xmax" (stdToString id)) ++ [row.tag id])
      (rewriteOps table old row id) where
  table_eq op hop := by
    rcases List.mem_pair.mp hop with rfl | rfl <;> rfl
  unmarked op hop := by
    rcases List.mem_pair.mp hop with rfl | rfl
    · exact nofun
    · exact nofun
  older op hop := by
    have holdMem : old ∈ data.rows := List.mem_of_getElem? hold
    rcases List.mem_pair.mp hop with rfl | rfl
    · refine olderOp_kill (h.held table data hdata old holdMem) (fun k hk he => ?_) fun he => ?_
      · have := stdToString_injective he
        omega
      · have := stdToString_eq_zero_iff.mp he
        omega
    · exact olderOp_insert h hid row
  held r hr := by
    have holdMem : old ∈ data.rows := List.mem_of_getElem? hold
    rcases List.mem_append.mp hr with hr | hr
    · rcases List.mem_or_eq_of_mem_set hr with hr | rfl
      · exact h.held table data hdata r hr
      · exact (h.held table data hdata old holdMem).end hid
    · rw [List.mem_singleton.mp hr]
      exact OlderRow.tag h.pos hid row
  alive_eq file hfile i hi := by
    have holdMem : old ∈ data.rows := List.mem_of_getElem? hold
    have hended : ended rowVersions (versionIdentity old) (stdToString id) file.rows = 0 :=
      ended_eq_zero (hfresh file hfile).1 _
    have hpos := h.outcome_pos hdata hfile holdMem hvisible
    have hset := alive_set_ended hold hvisible hidpos i
    -- the end of the old version
    have hkill : outcome rowVersions i file.rows
      (s.replayed table ++ [.kill old (stdToString id)]) =
        alive rowVersions i (data.rows.set pos (old.set "_xmax" (stdToString id))) := by
      by_cases hrow : versionIdentity old = i
      · subst hrow
        rw [if_pos rfl] at hset
        have hstep : outcome rowVersions (versionIdentity old) file.rows
            (s.replayed table ++ [.kill old (stdToString id)]) =
              outcome rowVersions (versionIdentity old) file.rows (s.replayed table) - 1 :=
          outcome_append_kill (V := rowVersions) hended
        rw [hstep, hi, hset, Nat.add_sub_cancel]
      · rw [if_neg hrow, Nat.add_zero] at hset
        rw [outcome_append_kill_of_ne (V := rowVersions) hrow, hi, hset]
    rw [opFor_rewriteOps, ← List.append_assoc, alive_append_tag, ← hkill]
    by_cases hrow : versionIdentity (row.tag id) = i
    · rw [if_pos hrow, ← hrow]
      refine outcome_append_insert (V := rowVersions) (Unfiled.append_kill ?_ fun he => ?_)
      · refine (hfresh file hfile).2 _ ?_
        rw [rowVersions_ident, find_xmin_versionIdentity, Row.find_tag_xmin]
      · rw [rowVersions_ident] at he
        exact he ▸ hpos
    · rw [if_neg hrow]
      exact outcome_append_insert_of_ne (V := rowVersions) hrow

def eraseOps (table : String) (gone : List Row) : List RedoOp :=
  gone.map fun row => ⟨.setXmax, table, row, ""⟩

theorem opFor_eraseOps (gone : List Row) :
    (eraseOps table gone).filterMap (opFor table) = gone.map fun row => .kill row "" := by
  rw [eraseOps, List.filterMap_map]
  have hfor : (opFor table ∘ fun row => (⟨.setXmax, table, row, ""⟩ : RedoOp)) =
      fun row => some (Op.kill row "") := by
    funext row
    simp [opFor]
  rw [hfor, List.filterMap_eq_map']

theorem mem_of_mem_keptRows {chosen : Nat → Bool} (h : row ∈ keptRows rows chosen) :
    row ∈ rows := by
  obtain ⟨p, hp, rfl⟩ := List.mem_map.mp h
  exact List.fst_mem_of_mem_zipIdx (List.mem_of_mem_filter hp)

theorem mem_of_mem_goneRows {chosen : Nat → Bool} (h : row ∈ goneRows rows chosen) :
    row ∈ rows := by
  obtain ⟨p, hp, rfl⟩ := List.mem_map.mp h
  exact List.fst_mem_of_mem_zipIdx (List.mem_of_mem_filter hp)

theorem Logged.balanced_erase (h : s.Logged) (hdata : s.tables table = some data)
    (chosen : Nat → Bool) :
    s.Balanced table data (keptRows data.rows chosen)
      (eraseOps table (goneRows data.rows chosen)) where
  table_eq op hop := by
    obtain ⟨row, -, rfl⟩ := List.mem_map.mp hop
    rfl
  unmarked op hop := by
    obtain ⟨row, -, rfl⟩ := List.mem_map.mp hop
    exact nofun
  older op hop := by
    obtain ⟨row, hrow, rfl⟩ := List.mem_map.mp hop
    exact olderOp_kill (h.held table data hdata row (mem_of_mem_goneRows hrow))
      (fun k _ => (stdToString_ne_empty k).symm) (by decide)
  held row hrow := h.held table data hdata row (mem_of_mem_keptRows hrow)
  alive_eq file hfile i hi := by
    have hended : ended rowVersions i "" file.rows = 0 :=
      ended_eq_zero (fun row hrow => (h.filed table file hfile row hrow).stamped) i
    rw [opFor_eraseOps, outcome_append_kills hended, hi, alive_keptRows data.rows chosen i]
    exact Nat.add_sub_cancel ..

theorem Fresh.logRows {name : String} (hfresh : s.Fresh name id) {ops : List RedoOp}
    (htable : ∀ op ∈ ops, op.table = table) (hunfiled : ∀ file, s.files table = some file → ∀ i,
      Unfiled rowVersions i file.rows (s.replayed table) →
        Unfiled rowVersions i file.rows (s.replayed table ++ ops.filterMap (opFor table))) :
    (s.logRows table rows ops).Fresh name id := by
  intro file hfile
  refine ⟨(hfresh file hfile).1, fun i hi => ?_⟩
  rw [replayed_logRows]
  have hbefore := (hfresh file hfile).2 i hi
  by_cases hname : name = table
  · subst hname
    exact hunfiled file hfile i hbefore
  · rw [filterMap_opFor_of_ne htable hname, List.append_nil]
    exact hbefore

end

def Legal (s : Server) : WriteStep → Prop
  | .insert table _ id | .rewrite table _ _ id => 0 < id ∧ id < s.nextId ∧ s.Fresh table id
  | _ => True

def rowStep : WriteStep → Bool
  | .takeId | .insert _ _ _ | .rewrite _ _ _ _ | .erase _ _ => true
  | _ => false

section

variable {table : String} {data : TableData}

theorem putRows_tables (hdata : s.tables table = some data) (rows : List Row) :
    s.tables.putRows table rows = s.tables.put table (some { data with rows := rows }) := by
  rw [TableStore.putRows, hdata, Option.map_some]

theorem Logged.putRows_files (h : s.Logged) (hdata : s.tables table = some data) (rows : List Row) :
    s.files.putRows table rows = s.files.put table (some { data with rows := rows }) := by
  obtain ⟨file, hfile, hschema, hcounters⟩ := h.exists_file hdata
  rw [TableStore.putRows, hfile, Option.map_some]
  simp only [hschema, hcounters]

theorem Logged.takeId (h : s.Logged) : (s.runStep .takeId).Logged where
  pos := Nat.succ_pos _
  header_eq := h.header_eq
  alive_eq := h.alive_eq
  filed name file hfile row hrow := (h.filed name file hfile row hrow).mono (Nat.le_succ _)
  held name data hdata row hrow := (h.held name data hdata row hrow).mono (Nat.le_succ _)
  logOlder op hop := (h.logOlder op hop).mono (Nat.le_succ _)
  opsOlder op hop := (h.opsOlder op hop).mono (Nat.le_succ _)
  filled := h.filled
  unmarked := h.unmarked
  dirty := h.dirty

theorem Logged.saveSchema (h : s.Logged) (table : String) (schema : TableSchema)
    (counters : List (String × Int)) : (s.runStep (.saveSchema table schema counters)).Logged := by
  have hrows : ∀ {store : TableStore} {name : String} {data : TableData},
      store.putSchema table schema counters name = some data →
        ∃ before, store name = some before ∧ before.rows = data.rows := by
    intro store name data hdata
    by_cases hname : name = table
    · subst hname
      rw [TableStore.putSchema, put_self] at hdata
      obtain ⟨before, hbefore, rfl⟩ := Option.map_eq_some_iff.mp hdata
      exact ⟨before, hbefore, rfl⟩
    · rw [TableStore.putSchema, put_of_ne _ hname] at hdata
      exact ⟨data, hdata, rfl⟩
  refine
    { pos := h.pos, header_eq := fun name => ?_, alive_eq := fun name file data hfile hdata i => ?_
      filed := fun name file hfile row hrow => ?_, held := fun name data hdata row hrow => ?_
      logOlder := h.logOlder, opsOlder := h.opsOlder, filled := h.filled, unmarked := h.unmarked
      dirty := h.dirty }
  · by_cases hname : name = table
    · subst hname
      have hheader := h.header_eq name
      simp only [runStep, TableStore.putSchema, put_self, Option.map_map]
      cases hfile : s.files name with
      | none =>
        rw [hfile] at hheader
        cases hdata : s.tables name with
        | none => rfl
        | some data =>
          rw [hdata] at hheader
          exact nomatch hheader
      | some file =>
        cases hdata : s.tables name with
        | none =>
          rw [hfile, hdata] at hheader
          exact nomatch hheader
        | some data => rfl
    · simp only [runStep, TableStore.putSchema, put_of_ne _ hname]
      exact h.header_eq name
  · obtain ⟨file', hfile', hfileRows⟩ := hrows hfile
    obtain ⟨data', hdata', hdataRows⟩ := hrows hdata
    have := h.alive_eq name file' data' hfile' hdata' i
    rw [hfileRows, hdataRows] at this
    exact this
  · obtain ⟨file', hfile', hfileRows⟩ := hrows hfile
    exact h.filed name file' hfile' row (hfileRows ▸ hrow)
  · obtain ⟨data', hdata', hdataRows⟩ := hrows hdata
    exact h.held name data' hdata' row (hdataRows ▸ hrow)

theorem Logged.alive_of_agrees (h : s.Logged) (hagrees : Agrees rows (s.replayed table)) (i : Row) :
    outcome rowVersions i rows (opsOf table s.redoLog ++ s.pending table) =
      alive rowVersions i rows :=
  (agrees_iff (h.wellLogged table)).mp hagrees i

theorem Logged.vacuum (h : s.Logged) (hdata : s.tables table = some data)
    (hagrees : Agrees (s.vacuumed data.rows) (s.pending table)) :
    ({ s with
      tables := s.tables.putRows table (s.vacuumed data.rows)
      files := s.files.putRows table (s.vacuumed data.rows) }.redoMarkFlushed table).Logged := by
  have hsettled := (agrees_iff (h.wellLogged_pending table)).mp hagrees
  have hheld : ∀ d, some { data with rows := s.vacuumed data.rows } = some d →
      ∀ row ∈ d.rows, OlderRow s.nextId row := by
    rintro d hd row hrow
    rw [← Option.some.inj hd] at hrow
    exact h.held table data hdata row (List.mem_of_mem_filter hrow)
  rw [putRows_tables hdata, h.putRows_files hdata, redoMarkFlushed]
  dsimp only
  split
  · rename_i hempty
    refine h.putBoth (.inl rfl) hheld fun d hd i => ?_
    rw [← Option.some.inj hd, hempty]
    exact hsettled i
  · refine h.putBoth (.inr rfl) hheld fun d hd i => ?_
    rw [← Option.some.inj hd, opsOf_flushedMarker, if_pos rfl]
    exact hsettled i

theorem Logged.rewrite (h : s.Logged) {pos : Nat} (hlegal : s.Legal (.rewrite table pos row id)) :
    (s.runStep (.rewrite table pos row id)).Logged := by
  rw [Server.runStep]
  cases hdata : s.tables table with
  | none => exact h
  | some data =>
    dsimp only
    cases hold : data.rows[pos]? with
    | none => exact h
    | some old =>
      dsimp only
      split
      · rename_i hvisible
        exact h.logRows hdata
          (h.balanced_rewrite hdata hlegal.2.1 hlegal.1 hlegal.2.2 hold hvisible row)
      · exact h

theorem Logged.erase (h : s.Logged) (table : String) (chosen : Nat → Bool) :
    (s.runStep (.erase table chosen)).Logged := by
  rw [Server.runStep]
  cases hdata : s.tables table with
  | none => exact h
  | some data => exact h.logRows hdata (h.balanced_erase hdata chosen)

theorem Logged.flush (h : s.Logged) (hsettled : s.Settled (.flush table)) :
    (s.runStep (.flush table)).Logged := by
  rw [Server.runStep]
  cases hdata : s.tables table with
  | none => exact h
  | some data =>
    have hboth : { s with
        tables := s.tables.put table (some data)
        files := s.files.put table (some data) }.Logged :=
      h.putBoth (.inl rfl) (fun d hd row hrow => h.held table d (hdata.trans hd) row hrow)
        fun d hd i => by
          rw [← Option.some.inj hd]
          exact h.alive_of_agrees (hsettled data hdata) i
    rw [put_eq_self hdata] at hboth
    dsimp only
    rw [h.putRows_files hdata]
    exact hboth

theorem Logged.alter (h : s.Logged) {schema : TableSchema} {counters : List (String × Int)}
    {change : RowChange} (hsettled : s.Settled (.alter table schema counters change)) :
    (s.runStep (.alter table schema counters change)).Logged := by
  rw [Server.runStep]
  cases hdata : s.tables table with
  | none => exact h
  | some data =>
    refine h.putBoth (.inl rfl) (fun d hd row hrow => ?_) fun d hd i => ?_
    · rw [← Option.some.inj hd] at hrow
      obtain ⟨before, hbefore, rfl⟩ := List.mem_map.mp hrow
      exact (h.held table data hdata before hbefore).change change
    · rw [← Option.some.inj hd]
      exact h.alive_of_agrees (hsettled data hdata) i

theorem Logged.create (h : s.Logged) {schema : TableSchema} {counters : List (String × Int)}
    (hsettled : s.Settled (.create table schema counters)) :
    (s.runStep (.create table schema counters)).Logged := by
  rw [Server.runStep]
  split
  · exact h
  · rename_i hnone
    refine h.putBoth (.inl rfl) (fun d hd row hrow => ?_) fun d hd i => ?_
    · rw [← Option.some.inj hd] at hrow
      exact nomatch hrow
    · rw [← Option.some.inj hd]
      exact h.alive_of_agrees (hsettled (Option.not_isSome_iff_eq_none.mp hnone)) i

theorem Logged.truncate (h : s.Logged) (hsettled : s.Settled (.truncate table)) :
    (s.runStep (.truncate table)).Logged := by
  rw [Server.runStep]
  cases hdata : s.tables table with
  | none => exact h
  | some data =>
    obtain ⟨hcounters, hagrees⟩ := hsettled data hdata
    have hsame : s.files.putRows table [] =
        s.files.put table (some { data with rows := [], autoIncrementCounters := [] }) := by
      rw [h.putRows_files hdata, hcounters]
    dsimp only
    rw [hsame]
    refine h.putBoth (.inl rfl) (fun d hd row hrow => ?_) fun d hd i => ?_
    · rw [← Option.some.inj hd] at hrow
      exact nomatch hrow
    · rw [← Option.some.inj hd]
      exact h.alive_of_agrees hagrees i

theorem Logged.rename (h : s.Logged) {target : String} {schema : TableSchema}
    (hsettled : s.Settled (.rename table target schema)) :
    (s.runStep (.rename table target schema)).Logged := by
  rw [Server.runStep]
  cases hdata : s.tables table with
  | none => exact h
  | some data =>
    dsimp only
    split
    · exact h
    · rename_i hnone
      have hgone : { s with
          tables := s.tables.put table none
          files := s.files.put table none }.Logged :=
        h.putBoth (.inl rfl) nofun nofun
      refine hgone.putBoth (.inl rfl) (fun d hd row hrow => ?_) fun d hd i => ?_
      · rw [← Option.some.inj hd] at hrow
        exact h.held table data hdata row hrow
      · rw [← Option.some.inj hd]
        exact h.alive_of_agrees
          (hsettled data hdata (Option.not_isSome_iff_eq_none.mp hnone)) i

theorem Logged.runStep (h : s.Logged) {step : WriteStep} (hlegal : s.Legal step)
    (hsettled : s.Settled step) : (s.runStep step).Logged := by
  cases step with
  | takeId => exact h.takeId
  | insert table row id =>
    rw [Server.runStep]
    cases hdata : s.tables table with
    | none => exact h
    | some data => exact h.logRows hdata (h.balanced_insert hdata hlegal.2.1 hlegal.2.2 row)
  | log table row id => exact hsettled.elim
  | rewrite table pos row id => exact h.rewrite hlegal
  | erase table chosen => exact h.erase table chosen
  | flush table => exact h.flush hsettled
  | vacuum table =>
    rw [Server.runStep]
    cases hdata : s.tables table with
    | none => exact h
    | some data =>
      dsimp only
      split
      · rename_i hless
        exact h.vacuum hdata (hsettled data hdata hless)
      · exact h
  | saveSchema table schema counters => exact h.saveSchema table schema counters
  | alter table schema counters change => exact h.alter hsettled
  | create table schema counters => exact h.create hsettled
  | drop table => exact h.putBoth (.inl rfl) nofun nofun
  | truncate table => exact h.truncate hsettled
  | rename table target schema => exact h.rename hsettled

end

end Server

end RusqlEngine
