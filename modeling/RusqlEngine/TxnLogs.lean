import RusqlEngine.Redo
import RusqlEngine.Savepoint

/-!
# The logs of a transaction and its savepoints

A row change is one entry of the undo log and one or two operations for the redo log, with a mark of
how many there are. A savepoint is a name and the length of the undo log. The machine below also
keeps what the logs were at each savepoint, and the row changes that have not been rolled back.
-/

namespace RusqlEngine

open Transition

/-- The arguments of a `log_*` call. -/
inductive LoggedChange
  | insert (table key : String) (data : Row)
  | update (table key : String) (oldData newData : Row) (newKey : String)
  | delete (table key : String) (oldData : Row)

namespace LoggedChange

def redoOps : LoggedChange → List RedoOp
  | .insert table _ data => [⟨.insertVersion, table, data, ""⟩]
  | .update table _ oldData newData _ =>
    [⟨.setXmax, table, oldData, (newData.find "_xmin").getD ""⟩,
      ⟨.insertVersion, table, newData, ""⟩]
  | .delete table _ oldData => [⟨.setXmax, table, oldData, ""⟩]

def undoEntry (txnId : ℕ) : LoggedChange → UndoEntry
  | .insert table key _ => ⟨txnId, .insert, table, key, none, none⟩
  | .update table key oldData _ newKey => ⟨txnId, .update, table, key, some oldData,
      if newKey = "" ∨ newKey = key then none else some newKey⟩
  | .delete table key oldData => ⟨txnId, .delete, table, key, some oldData, none⟩

end LoggedChange

namespace TxnManager

/-- The `log_*` call of a row change whose records reach both files. -/
def logChange (tm : TxnManager) : LoggedChange → TxnManager
  | .insert table key data => tm.logInsert table key data
  | .update table key oldData newData newKey => tm.logUpdate table key oldData newData newKey
  | .delete table key oldData => tm.logDelete table key oldData

/-- A `log_*` call in a transaction that throws from one of the two files: the operations and the
mark stay, and the undo entry is not pushed. -/
def logThrows (tm : TxnManager) (change : LoggedChange) : TxnManager :=
  let redoOps := tm.redoOps ++ change.redoOps
  { tm with redoOps := redoOps, redoMarks := tm.redoMarks ++ [redoOps.length] }

def releaseSavepoint (tm : TxnManager) (name : String) : Except String TxnManager :=
  if tm.active = false then .error "No active transaction."
  else
    match tm.savepoints.reverse.findIdx? (·.1 = name) with
    | none => .error ("Savepoint '" ++ name ++ "' not found")
    | some back => .ok { tm with savepoints := (tm.savepoints.reverse.eraseIdx back).reverse }

def takeRedoOps (tm : TxnManager) (fallbackXmax : String) : List RedoOp × TxnManager :=
  (tm.redoOps.map (fillXmax fallbackXmax), { tm with redoOps := [], redoMarks := [] })

end TxnManager

/-- The logs at one moment, and the row changes that had not been rolled back then. -/
structure SavedLogs where
  undoLog : List UndoEntry
  redoOps : List RedoOp
  changes : List LoggedChange

/-- A call; `written` and `rewritten` are whether the files could be written. -/
inductive TxnCall
  | log (change : LoggedChange) (written : Bool)
  | createSavepoint (name : String)
  | rollbackToSavepoint (name : String) (rewritten : Bool)
  | releaseSavepoint (name : String)

/-- The manager, the row changes not rolled back, and the logs that each standing savepoint found,
the last savepoint at the end. -/
structure TxnLogs where
  tm : TxnManager
  changes : List LoggedChange
  standing : List (String × SavedLogs)

namespace TxnLogs

def start (tm : TxnManager) : TxnLogs where
  tm := tm
  changes := []
  standing := []

def log (s : TxnLogs) (change : LoggedChange) (written : Bool) : TxnLogs :=
  if written then { s with tm := s.tm.logChange change, changes := s.changes ++ [change] }
  else { s with tm := s.tm.logThrows change }

/-- A name that is used again stands for the new savepoint only. -/
def createSavepoint (s : TxnLogs) (name : String) : TxnLogs :=
  match s.tm.createSavepoint name with
  | .error _ => s
  | .ok tm =>
    { s with
      tm := tm
      standing := s.standing.filter (·.1 ≠ name) ++
        [(name, ⟨tm.undoLog, tm.redoOps, s.changes⟩)] }

def upTo (s : TxnLogs) (name : String) : List (String × SavedLogs) :=
  s.standing.reverse.dropWhile (·.1 ≠ name)

/-- Where the rewrite of the undo file throws the manager has been changed all the same. -/
def rollbackToSavepoint (s : TxnLogs) (name : String) : TxnLogs :=
  match s.tm.rollbackToSavepoint name, s.upTo name with
  | .ok (tm, _), (label, saved) :: earlier =>
    { tm := tm, changes := saved.changes, standing := ((label, saved) :: earlier).reverse }
  | _, _ => s

def releaseSavepoint (s : TxnLogs) (name : String) : TxnLogs :=
  match s.tm.releaseSavepoint name, s.standing.reverse.findIdx? (·.1 = name) with
  | .ok tm, some back =>
    { s with tm := tm, standing := (s.standing.reverse.eraseIdx back).reverse }
  | _, _ => s

def step (s : TxnLogs) : TxnCall → Option TxnLogs
  | .log change written => some (s.log change written)
  | .createSavepoint name => some (s.createSavepoint name)
  | .rollbackToSavepoint name _ => some (s.rollbackToSavepoint name)
  | .releaseSavepoint name => some (s.releaseSavepoint name)

/-- A transaction that has just begun; a manager without one has no savepoints either. -/
structure Opened (tm : TxnManager) : Prop where
  active : tm.active = true
  undoLog : tm.undoLog = []
  redoOps : tm.redoOps = []
  redoMarks : tm.redoMarks = []
  savepoints : tm.savepoints = []

/-- The lengths fit each other. -/
structure Aligned (tm : TxnManager) : Prop where
  marks : tm.redoMarks.length = tm.undoLog.length
  savepoints : ∀ p ∈ tm.savepoints, p.2 ≤ tm.undoLog.length

/-- Rolling back to a savepoint restores the logs that it found, returns what was logged since, last
entry first, and leaves it and those before it. -/
def Restores (s : TxnLogs) (name : String) : Prop :=
  ∀ tm entries, s.tm.rollbackToSavepoint name = .ok (tm, entries) →
    ∃ saved earlier, s.upTo name = (name, saved) :: earlier ∧
      tm.undoLog = saved.undoLog ∧ tm.redoOps = saved.redoOps ∧
      s.tm.undoLog = saved.undoLog ++ entries.reverse ∧
      tm.savepoints.map Prod.fst = (((name, saved) :: earlier).reverse).map Prod.fst

structure Exact (s : TxnLogs) : Prop where
  aligned : Aligned s.tm
  restores : ∀ name, s.Restores name
  batch : ∀ fallbackXmax, (s.tm.takeRedoOps fallbackXmax).1 =
    (s.changes.flatMap LoggedChange.redoOps).map (fillXmax fallbackXmax)

/-- Every `log_*` call writes both files. -/
def logWritten (_ : TxnLogs) : TxnCall → Prop
  | .log _ written => written = true
  | _ => True

/-- The marks of these row changes. -/
def marksOf (changes : List LoggedChange) : List ℕ :=
  (List.range changes.length).map fun i =>
    ((changes.take (i + 1)).flatMap LoggedChange.redoOps).length

/-- The logs are those of the changes not rolled back, and each savepoint found the logs of a first
part of them, a longer one the later it was made. -/
structure Sound (s : TxnLogs) : Prop where
  active : s.tm.active = true
  undoLog : s.tm.undoLog = s.changes.map (LoggedChange.undoEntry s.tm.txnId)
  redoOps : s.tm.redoOps = s.changes.flatMap LoggedChange.redoOps
  redoMarks : s.tm.redoMarks = marksOf s.changes
  savepoints : s.tm.savepoints = s.standing.map fun p => (p.1, p.2.changes.length)
  saved : ∀ p ∈ s.standing, p.2.undoLog = p.2.changes.map (LoggedChange.undoEntry s.tm.txnId) ∧
    p.2.redoOps = p.2.changes.flatMap LoggedChange.redoOps ∧ p.2.changes <+: s.changes
  chain : s.standing.Pairwise fun p q => p.2.changes <+: q.2.changes

section

variable {changes kept since : List LoggedChange} {change : LoggedChange}

theorem length_marksOf (changes : List LoggedChange) :
    (marksOf changes).length = changes.length := by
  rw [marksOf, List.length_map, List.length_range]

theorem marksOf_append (changes : List LoggedChange) (change : LoggedChange) :
    marksOf (changes ++ [change]) =
      marksOf changes ++ [((changes ++ [change]).flatMap LoggedChange.redoOps).length] := by
  rw [marksOf, List.length_append, List.length_singleton, List.range_succ, List.map_append,
    List.map_singleton, marksOf]
  congr 1
  · refine List.map_congr_left fun i hi => ?_
    have hlt : i + 1 ≤ changes.length := List.mem_range.mp hi
    rw [List.take_append_of_le_length hlt]
  · rw [List.take_of_length_le (by rw [List.length_append, List.length_singleton])]

theorem marksOf_take (kept since : List LoggedChange) :
    (marksOf (kept ++ since)).take kept.length = marksOf kept := by
  induction since using List.reverseRecOn with
  | nil =>
    rw [List.append_nil]
    exact List.take_of_length_le (length_marksOf kept).le
  | append_singleton since change ih =>
    rw [← List.append_assoc, marksOf_append, List.take_append_of_le_length, ih]
    rw [length_marksOf, List.length_append]
    exact Nat.le_add_right _ _

theorem marksOf_last (kept since : List LoggedChange) :
    (if kept.length = 0 then 0 else ((marksOf (kept ++ since))[kept.length - 1]?).getD 0) =
      (kept.flatMap LoggedChange.redoOps).length := by
  split_ifs with hnil
  · rw [List.length_eq_zero_iff.mp hnil]
    rfl
  · have hlast : kept.length - 1 < (kept ++ since).length := by
      rw [List.length_append]
      omega
    have hsucc : kept.length - 1 + 1 = kept.length := by omega
    rw [marksOf, List.getElem?_map, List.getElem?_range hlast, Option.map_some, Option.getD_some,
      hsucc, List.take_left]

end

section

variable {s s' : TxnLogs} {name : String} {change : LoggedChange}

theorem start_sound {tm : TxnManager} (h : Opened tm) : (start tm).Sound where
  active := h.active
  undoLog := h.undoLog
  redoOps := h.redoOps
  redoMarks := h.redoMarks
  savepoints := h.savepoints
  saved := nofun
  chain := List.Pairwise.nil

theorem logChange_eq (tm : TxnManager) (change : LoggedChange) :
    tm.logChange change = tm.pushLog change.redoOps (change.undoEntry tm.txnId) := by
  cases change <;> rfl

theorem log_sound (h : s.Sound) : (s.log change true).Sound := by
  have hpush : (s.log change true).tm = { s.tm with
      redoOps := s.tm.redoOps ++ change.redoOps
      redoMarks := s.tm.redoMarks ++ [(s.tm.redoOps ++ change.redoOps).length]
      undoLog := s.tm.undoLog ++ [change.undoEntry s.tm.txnId] } := by
    change s.tm.logChange change = _
    rw [logChange_eq, TxnManager.pushLog, if_pos h.active]
  have hops : s.tm.redoOps ++ change.redoOps =
      (s.changes ++ [change]).flatMap LoggedChange.redoOps := by
    rw [h.redoOps, List.flatMap_append, List.flatMap_singleton]
  constructor
  · rw [hpush]
    exact h.active
  · rw [hpush]
    change s.tm.undoLog ++ _ = (s.changes ++ [change]).map _
    rw [h.undoLog, List.map_append, List.map_singleton]
  · rw [hpush]
    exact hops
  · rw [hpush]
    change s.tm.redoMarks ++ [(s.tm.redoOps ++ change.redoOps).length] =
      marksOf (s.changes ++ [change])
    rw [hops, h.redoMarks, marksOf_append]
  · rw [hpush]
    exact h.savepoints
  · intro p hp
    obtain ⟨hundo, hredo, hleading⟩ := h.saved p hp
    rw [hpush]
    exact ⟨hundo, hredo, hleading.trans (List.prefix_append _ _)⟩
  · exact h.chain

theorem Sound.sublist (h : s.Sound) {standing : List (String × SavedLogs)}
    (hsub : standing.Sublist s.standing) :
    Sound { s with
      tm := { s.tm with savepoints := standing.map fun p => (p.1, p.2.changes.length) }
      standing := standing } where
  active := h.active
  undoLog := h.undoLog
  redoOps := h.redoOps
  redoMarks := h.redoMarks
  savepoints := rfl
  saved := fun p hp => h.saved p (hsub.subset hp)
  chain := h.chain.sublist hsub

theorem createSavepoint_sound (h : s.Sound) (name : String) : (s.createSavepoint name).Sound := by
  have hfilter : s.tm.savepoints.filter (·.1 ≠ name) =
      (s.standing.filter (·.1 ≠ name)).map fun p => (p.1, p.2.changes.length) := by
    rw [h.savepoints, List.filter_map]
    rfl
  have hlength : s.tm.undoLog.length = s.changes.length := by rw [h.undoLog, List.length_map]
  have hkept := h.sublist (List.filter_sublist (p := fun p => p.1 ≠ name) (l := s.standing))
  have hrest : s.createSavepoint name = { s with
      tm := { s.tm with savepoints :=
        s.tm.savepoints.filter (·.1 ≠ name) ++ [(name, s.tm.undoLog.length)] }
      standing := s.standing.filter (·.1 ≠ name) ++
        [(name, ⟨s.tm.undoLog, s.tm.redoOps, s.changes⟩)] } := by
    rw [createSavepoint, TxnManager.createSavepoint, if_neg (by rw [h.active]; decide)]
  rw [hrest]
  refine ⟨h.active, h.undoLog, h.redoOps, h.redoMarks, ?_, fun p hp => ?_, ?_⟩
  · change s.tm.savepoints.filter (·.1 ≠ name) ++ [(name, s.tm.undoLog.length)] =
      List.map _ (s.standing.filter (·.1 ≠ name) ++ [_])
    rw [hfilter, hlength, List.map_append, List.map_singleton]
  · rcases List.mem_append.mp hp with hp | hp
    · exact hkept.saved p hp
    · obtain rfl := List.mem_singleton.mp hp
      exact ⟨h.undoLog, h.redoOps, List.prefix_rfl⟩
  · refine List.pairwise_append.mpr ⟨hkept.chain, List.pairwise_singleton .., fun p hp q hq => ?_⟩
    obtain rfl := List.mem_singleton.mp hq
    exact (hkept.saved p hp).2.2

theorem Sound.upTo_savepoints (h : s.Sound) (name : String) :
    s.tm.savepoints.reverse.dropWhile (·.1 ≠ name) =
      (s.upTo name).map fun p => (p.1, p.2.changes.length) := by
  rw [h.savepoints, ← List.map_reverse, List.dropWhile_map]
  rfl

theorem standing_eq (s : TxnLogs) (name : String) :
    s.standing = (s.upTo name).reverse ++ (s.standing.reverse.takeWhile (·.1 ≠ name)).reverse := by
  rw [← List.reverse_append, upTo, List.takeWhile_append_dropWhile, List.reverse_reverse]

theorem Sound.rollback_eq (h : s.Sound) {label : String} {saved : SavedLogs}
    {earlier : List (String × SavedLogs)} (hupTo : s.upTo name = (label, saved) :: earlier) :
    label = name ∧ ∃ since, s.changes = saved.changes ++ since ∧
      s.tm.rollbackToSavepoint name = .ok ({ s.tm with
        undoLog := saved.undoLog
        redoOps := saved.redoOps
        redoMarks := marksOf saved.changes
        savepoints := ((label, saved) :: earlier).reverse.map fun p => (p.1, p.2.changes.length) },
        (since.map (LoggedChange.undoEntry s.tm.txnId)).reverse) := by
  have hname : label = name := by
    have hhead := List.head?_dropWhile_not (fun p : String × SavedLogs => p.1 ≠ name)
      s.standing.reverse
    rw [show s.standing.reverse.dropWhile (·.1 ≠ name) = _ from hupTo] at hhead
    exact not_not.mp (of_decide_eq_false hhead)
  have hmem : (label, saved) ∈ s.standing := by
    rw [standing_eq s name, hupTo]
    exact List.mem_append_left _ (List.mem_reverse.mpr List.mem_cons_self)
  obtain ⟨hundo, hredo, since, hsince⟩ := h.saved _ hmem
  refine ⟨hname, since, hsince.symm, ?_⟩
  have hentries : s.tm.undoLog =
      saved.undoLog ++ since.map (LoggedChange.undoEntry s.tm.txnId) := by
    rw [h.undoLog, ← hsince, List.map_append, hundo]
  have hlength : saved.changes.length = saved.undoLog.length := by rw [hundo, List.length_map]
  rw [TxnManager.rollbackToSavepoint, if_neg (by rw [h.active]; decide), h.upTo_savepoints,
    hupTo, List.map_cons]
  dsimp only
  rw [h.redoMarks, ← hsince, marksOf_last, marksOf_take, h.redoOps, ← hsince, List.flatMap_append,
    List.take_left, hentries, hlength, List.take_left, List.drop_left, ← hredo, List.map_reverse,
    List.map_cons, hlength]

theorem rollbackToSavepoint_sound (h : s.Sound) (name : String) :
    (s.rollbackToSavepoint name).Sound := by
  cases hupTo : s.upTo name with
  | nil =>
    have hsame : s.rollbackToSavepoint name = s := by
      rw [rollbackToSavepoint, hupTo]
      split <;> first | rfl | contradiction
    rw [hsame]
    exact h
  | cons p earlier =>
    obtain ⟨label, saved⟩ := p
    obtain ⟨-, since, hsince, hrollback⟩ := h.rollback_eq hupTo
    have hstanding := standing_eq s name
    rw [hupTo] at hstanding
    have hmem : ∀ p ∈ ((label, saved) :: earlier).reverse, p ∈ s.standing := fun p hp => by
      rw [hstanding]
      exact List.mem_append_left _ hp
    obtain ⟨hundo, hredo, -⟩ := h.saved (label, saved) (hmem _ (List.mem_reverse.mpr
      List.mem_cons_self))
    have hchain := h.chain
    rw [hstanding] at hchain
    have hchain := (List.pairwise_append.mp hchain).1
    have hleading : ∀ p ∈ earlier, p.2.changes <+: saved.changes :=
      (List.pairwise_cons.mp (List.pairwise_reverse.mp hchain)).1
    rw [rollbackToSavepoint, hrollback, hupTo]
    refine ⟨h.active, hundo, hredo, rfl, rfl, fun p hp => ?_, hchain⟩
    obtain ⟨hpundo, hpredo, -⟩ := h.saved p (hmem p hp)
    refine ⟨hpundo, hpredo, ?_⟩
    rcases List.mem_cons.mp (List.mem_reverse.mp hp) with rfl | hp
    · exact List.prefix_rfl
    · exact hleading p hp

theorem releaseSavepoint_sound (h : s.Sound) (name : String) : (s.releaseSavepoint name).Sound := by
  have hfind : s.tm.savepoints.reverse.findIdx? (·.1 = name) =
      s.standing.reverse.findIdx? (·.1 = name) := by
    rw [h.savepoints, ← List.map_reverse, List.findIdx?_map]
    rfl
  cases hback : s.standing.reverse.findIdx? (·.1 = name) with
  | none =>
    have hsame : s.releaseSavepoint name = s := by
      rw [releaseSavepoint, hback]
      split <;> first | rfl | contradiction
    rw [hsame]
    exact h
  | some back =>
    have hrelease : s.tm.releaseSavepoint name = .ok { s.tm with
        savepoints := (s.standing.reverse.eraseIdx back).reverse.map fun p =>
          (p.1, p.2.changes.length) } := by
      rw [TxnManager.releaseSavepoint, if_neg (by rw [h.active]; decide), hfind, hback]
      dsimp only
      rw [h.savepoints, ← List.map_reverse, List.eraseIdx_map, List.map_reverse]
    have hsub : (s.standing.reverse.eraseIdx back).reverse.Sublist s.standing := by
      have hsub := (List.eraseIdx_sublist s.standing.reverse back).reverse
      rwa [List.reverse_reverse] at hsub
    rw [releaseSavepoint, hrelease, hback]
    exact h.sublist hsub

theorem step_sound {call : TxnCall} (h : s.Sound) (hok : logWritten s call)
    (hstep : s.step call = some s') : s'.Sound := by
  cases call with
  | log change written =>
    obtain rfl : written := hok
    obtain rfl := Option.some.inj hstep
    exact log_sound h
  | createSavepoint name =>
    obtain rfl := Option.some.inj hstep
    exact createSavepoint_sound h name
  | rollbackToSavepoint name _ =>
    obtain rfl := Option.some.inj hstep
    exact rollbackToSavepoint_sound h name
  | releaseSavepoint name =>
    obtain rfl := Option.some.inj hstep
    exact releaseSavepoint_sound h name

theorem Sound.aligned (h : s.Sound) : Aligned s.tm where
  marks := by rw [h.redoMarks, length_marksOf, h.undoLog, List.length_map]
  savepoints := fun p hp => by
    rw [h.savepoints] at hp
    obtain ⟨q, hq, rfl⟩ := List.mem_map.mp hp
    rw [h.undoLog, List.length_map]
    exact (h.saved q hq).2.2.length_le

theorem Sound.restores (h : s.Sound) (name : String) : s.Restores name := by
  intro tm entries hrollback
  cases hupTo : s.upTo name with
  | nil =>
    rw [TxnManager.rollbackToSavepoint, if_neg (by rw [h.active]; decide),
      h.upTo_savepoints, hupTo] at hrollback
    cases hrollback
  | cons p earlier =>
    obtain ⟨label, saved⟩ := p
    obtain ⟨rfl, since, hsince, heq⟩ := h.rollback_eq hupTo
    obtain ⟨rfl, rfl⟩ := Prod.mk.inj (Except.ok.inj (heq.symm.trans hrollback))
    refine ⟨saved, earlier, rfl, rfl, rfl, ?_, ?_⟩
    · have hmem : (label, saved) ∈ s.standing := by
        rw [standing_eq s label, hupTo]
        exact List.mem_append_left _ (List.mem_reverse.mpr List.mem_cons_self)
      rw [h.undoLog, hsince, List.map_append, List.reverse_reverse, (h.saved _ hmem).1]
    · rw [List.map_map]
      rfl

theorem Sound.exact (h : s.Sound) : s.Exact where
  aligned := h.aligned
  restores := h.restores
  batch := fun fallbackXmax => by rw [TxnManager.takeRedoOps, h.redoOps]

theorem logWritten_of_exact {call : TxnCall} (h : s.Sound)
    (hexact : ∀ s', s.step call = some s' → s'.Exact) : logWritten s call := by
  cases call with
  | log change written =>
    cases written with
    | true => rfl
    | false =>
      have hmarks := (hexact _ rfl).aligned.marks
      have hbefore := h.aligned.marks
      change (s.tm.redoMarks ++ [_]).length = s.tm.undoLog.length at hmarks
      rw [List.length_append, hbefore] at hmarks
      exact absurd hmarks (Nat.succ_ne_self _)
  | createSavepoint _ | rollbackToSavepoint _ _ | releaseSavepoint _ => trivial

end

/-- Savepoints restore the logs exactly in the runs of a transaction whose `log_*` calls write both
files, and only there. -/
theorem exact_throughout_iff {tm : TxnManager} (h : Opened tm) (calls : List TxnCall) :
    throughout step Exact (start tm) calls ↔ execOk step logWritten (start tm) calls :=
  throughout_iff_of_invariant (fun _ => Sound.exact) (fun _ _ _ => step_sound)
    (fun _ _ => logWritten_of_exact) calls (start_sound h)

def begun : TxnManager :=
  { TxnManager.fresh with active := true, txnId := 1 }

def insertOf (key : String) : LoggedChange :=
  .insert "t" key (Row.ofCells [("id", key)])

/-- Two inserts, a savepoint and a third insert that it undoes. -/
def savedPair : List TxnCall :=
  [.log (insertOf "1") true, .log (insertOf "2") true, .createSavepoint "s",
    .log (insertOf "3") true, .rollbackToSavepoint "s" true]

theorem exact_throughout_savedPair : throughout step Exact (start begun) savedPair :=
  (exact_throughout_iff ⟨rfl, rfl, rfl, rfl, rfl⟩ savedPair).mpr
    ⟨rfl, fun _ _ => ⟨rfl, fun _ _ => ⟨trivial, fun _ _ => ⟨rfl, fun _ _ => ⟨trivial,
      fun _ _ => trivial⟩⟩⟩⟩⟩

/-- The first insert cannot be written to the WAL. Its mark then stands for the second one, which
the rollback to the savepoint takes out of the batch, too. -/
def failedInsert : List TxnCall :=
  [.log (insertOf "1") false, .log (insertOf "2") true, .createSavepoint "s",
    .log (insertOf "3") true, .rollbackToSavepoint "s" true]

theorem failedInsert_not_exact :
    ¬ throughout step Exact (start begun) failedInsert ∧
      (exec step (start begun) failedInsert).map (fun s => (s.changes, s.tm.redoOps)) =
        some ([insertOf "2"], (insertOf "1").redoOps) := by
  refine ⟨fun h => ?_, rfl⟩
  have hmarks := (throughout_start _ (h.2 _ rfl)).aligned.marks
  exact absurd hmarks (by decide)

end TxnLogs

end RusqlEngine
