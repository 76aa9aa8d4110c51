import RusqlEngine.Cascade
import RusqlEngine.UpdateTargets
import RusqlEngine.TxnManager
import RusqlEngine.Library.ExceptFold

/-!
# What a failed UPDATE leaves behind

`exec_update_inner` outside a transaction: the rows are claimed, their new versions checked, written
and logged, and only then the child rows planned, claimed and rewritten. A conflict starts an
attempt again; the attempts before the deadline are a finite tape of the lock manager's answers. The
values, checks and keys of a row are parameters.
-/

namespace RusqlEngine

inductive LockResult
  | granted
  | conflict (holder : Nat)
  | deadlock (holder : Nat)
deriving DecidableEq, Repr

structure LockRequest where
  table : String
  key : String
  shared : Bool
deriving DecidableEq, Repr

/-- One attempt: what the lock manager answers at once, and after a wait (`block_on_row`). -/
structure LockRound where
  probe : LockRequest → LockResult
  wait : LockRequest → LockResult

/-- Why an attempt ends without a result. -/
inductive Stop
  | error (message : String)
  | conflict (request : LockRequest) (holder : Nat)
deriving DecidableEq, Repr

/-- Claims are asked for in turn, each under the table that its message names. -/
def acquireAll (deadlock : String → Nat → String) (round : LockRound) :
    List (String × LockRequest) → Except Stop Unit
  | [] => .ok ()
  | (name, request) :: requests =>
    match round.probe request with
    | .granted => acquireAll deadlock round requests
    | .deadlock holder => .error (.error (deadlock name holder))
    | .conflict holder => .error (.conflict request holder)

/-- What follows an attempt that meets a conflict is for the loop to say. -/
def settle {α : Type} (onConflict : LockRequest → Nat → Except String α) :
    Except Stop α → Except String α
  | .ok a => .ok a
  | .error (.error message) => .error message
  | .error (.conflict request holder) => onConflict request holder

/-- The loop over the attempts; with no attempt left the wait runs into the deadline. -/
def retryRounds {α : Type} (deadlock timeout : LockRequest → Nat → String)
    (attempt : LockRound → Except Stop α) : LockRound → List LockRound → Except String α
  | round, [] => settle (fun request holder => .error (timeout request holder)) (attempt round)
  | round, next :: rest =>
    settle (fun request _ =>
      match round.wait request with
      | .granted => retryRounds deadlock timeout attempt next rest
      | .deadlock holder => .error (deadlock request holder)
      | .conflict holder => .error (timeout request holder)) (attempt round)

/-- The first claim that is not granted at once. -/
def firstRefused (requests : List (String × LockRequest)) (round : LockRound) :
    Option LockRequest :=
  (requests.map (·.2)).find? fun request => round.probe request ≠ .granted

/-- Every claim is granted in some attempt, and until then its holder is another transaction that
lets it go before the deadline. -/
def ClaimsWon (requests : List (String × LockRequest)) : LockRound → List LockRound → Prop
  | round, [] => firstRefused requests round = none
  | round, next :: rest => ∀ request, firstRefused requests round = some request →
      (∃ holder, round.probe request = .conflict holder) ∧ round.wait request = .granted ∧
        ClaimsWon requests next rest

/-- A row that the plan rewrites, and what it becomes. -/
structure PlannedRewrite where
  table : String
  pos : Nat
  image : Row

namespace CascadeDb

/-- `CascadeSim::finish`: the rows that stay and read differently. -/
def finish (db : CascadeDb) (sim : CascadeSim) : List PlannedRewrite :=
  (db.catalog.insertionSort fun a b => a.1 ≤ b.1).flatMap fun t =>
    (List.range (db.rowsOf t.1).length).filterMap fun pos =>
      if sim.gone t.1 pos then none
      else (sim.rewritten t.1 pos).bind fun image =>
        if image = (db.rowsOf t.1).getD pos ∅ then none else some ⟨t.1, pos, image⟩

def referencedColumns (db : CascadeDb) (table : String) : List String :=
  ((db.edgesOf table).map (·.refColumn)).dedup

end CascadeDb

def fkClaimTable (parentTable refColumn : String) : String :=
  parentTable ++ "#fk:" ++ refColumn

def singlePkCol (schema : Option TableSchema) : Option String :=
  schema.bind fun sc => match sc.columns.filter (·.primaryKey) with
    | [col] => some col.name
    | _ => none

/-- An UPDATE of one table in a database with foreign keys. `order`: how the maps of a plan hand out
its rewrites. -/
structure FkUpdate where
  db : CascadeDb
  schemas : Catalog
  table : String
  search : UpdateStmt
  changedCols : List String
  refusedEarly : Option String
  rewritten : Row → Except String Row
  chainPossible : Bool
  keyClaims : Row → Row → List LockRequest
  uniqueViolation : List (Nat × Row × Row) → Option String
  order : List PlannedRewrite → List PlannedRewrite
  order_perm : ∀ plan, (order plan).Perm plan
  claimTxnId : Nat
  txn : TxnManager
  ownRound : LockRound
  ownRest : List LockRound
  cascadeRound : LockRound
  cascadeRest : List LockRound

/-- What the statement returns and leaves. -/
structure UpdateOutcome where
  result : Except String Unit
  tables : Tables
  txn : TxnManager

namespace FkUpdate

def stmt (u : FkUpdate) : UpdateStmt :=
  { u.search with rows := u.db.rowsOf u.table }

def targetRows (u : FkUpdate) : List (Nat × Row) :=
  u.stmt.targets.filterMap fun pos => ((u.db.rowsOf u.table)[pos]?).map fun row => (pos, row)

def rowClaims (u : FkUpdate) : List (String × LockRequest) :=
  u.targetRows.map fun t => (u.table, ⟨u.table, (t.2.find u.stmt.pkColumn).getD "", false⟩)

/-- The new version of every target, or what refuses one of them. -/
def newVersions (u : FkUpdate) : Except String (List (Nat × Row × Row)) :=
  u.targetRows.mapM fun t => do
    let image ← u.rewritten t.2
    return (t.1, t.2, image.tag u.search.myId)

/-- The early look at the whole chain of foreign keys. -/
def dryRun (u : FkUpdate) (writes : List (Nat × Row × Row)) : Option String :=
  if u.chainPossible then
    match u.db.planCascadeUpdate u.table (writes.map (·.2)) u.changedCols with
    | .error refused => some refused
    | .ok _ => none
  else none

/-- The claims on the keys of the new versions. -/
def newKeyClaims (u : FkUpdate) (writes : List (Nat × Row × Row)) : List (String × LockRequest) :=
  writes.flatMap fun w => (u.keyClaims w.2.2 w.2.1).map fun request => (u.table, request)

def deadlockText (u : FkUpdate) (action : String) (holder : Nat) : String :=
  "Deadlock detected: transaction " ++ stdToString u.claimTxnId ++ " waits for transaction " ++
    stdToString holder ++ " (" ++ action ++ ". Transaction " ++ stdToString u.claimTxnId ++
    " aborted."

def timeoutText (action : String) (request : LockRequest) (holder : Nat) : String :=
  "ERROR 1205 (HY000): Lock wait timeout exceeded; row '" ++ request.key ++ "' in '" ++
    request.table ++ "' is held by transaction " ++ stdToString holder ++ ". Cannot " ++ action ++
    "."

/-- One attempt on the rows of the table: claims and checks, nothing written. -/
def ownAttempt (u : FkUpdate) (round : LockRound) : Except Stop (List (Nat × Row × Row)) := do
  acquireAll (fun name holder => u.deadlockText ("UPDATE '" ++ name ++ "'") holder) round
    u.rowClaims
  let writes ← u.newVersions.mapError .error
  match u.dryRun writes with
  | some refused => .error (.error refused)
  | none =>
    acquireAll (fun name holder => u.deadlockText ("UPDATE '" ++ name ++ "'") holder) round
      (u.newKeyClaims writes)
    match u.uniqueViolation writes with
    | some violation => .error (.error violation)
    | none => return writes

/-- The attempts on the rows of the table. -/
def ownPhase (u : FkUpdate) : Except String (List (Nat × Row × Row)) :=
  match u.refusedEarly with
  | some refused => .error refused
  | none =>
    if (u.db.tables u.table).isNone then .error ("Table '" ++ u.table ++ "' not found")
    else retryRounds (fun _ holder => u.deadlockText ("UPDATE '" ++ u.table ++ "'") holder)
      (timeoutText "UPDATE") u.ownAttempt u.ownRound u.ownRest

/-- The old versions are ended, the new ones appended. -/
def writeRows (rows : List Row) (id : Nat) (writes : List (Nat × Row × Row)) : List Row :=
  rows.mapIdx (fun pos row =>
      if pos ∈ writes.map (·.1) then row.set "_xmax" (stdToString id) else row) ++
    writes.map (·.2.2)

def putRows (tables : Tables) (table : String) (rows : List Row) : Tables :=
  fun name => if name = table then some rows else tables name

/-- The tables once the statement has written its own rows. -/
def writtenTables (u : FkUpdate) (writes : List (Nat × Row × Row)) : Tables :=
  putRows u.db.tables u.table (writeRows (u.db.rowsOf u.table) u.search.myId writes)

def writtenDb (u : FkUpdate) (writes : List (Nat × Row × Row)) : CascadeDb :=
  { u.db with tables := u.writtenTables writes }

/-- The transaction manager once it has logged these rows. -/
def writtenTxn (u : FkUpdate) (writes : List (Nat × Row × Row)) : TxnManager :=
  writes.foldl (fun txn w =>
    let key := (w.2.1.find u.stmt.pkColumn).getD ""
    txn.logUpdate u.table key w.2.1 w.2.2 ((w.2.2.find u.stmt.pkColumn).getD key)) u.txn

/-- The foreign-key actions of the rows that the statement has written. -/
def cascadePlan (u : FkUpdate) (writes : List (Nat × Row × Row)) :
    Except String (List PlannedRewrite) := do
  let sim ← (u.writtenDb writes).planCascadeUpdate u.table (writes.map (·.2)) u.changedCols
  return u.order ((u.writtenDb writes).finish sim)

/-- The claims on a row of a plan: the row, and the values of it that something refers to. -/
def rewriteClaims (u : FkUpdate) (db : CascadeDb) (planned : PlannedRewrite) :
    List (String × LockRequest) :=
  let row := (db.rowsOf planned.table).getD planned.pos ∅
  let rowClaim := ((singlePkCol (u.schemas planned.table)).bind fun col => row.find col).map
    fun key => (planned.table, (⟨planned.table, key, false⟩ : LockRequest))
  let changed := (db.referencedColumns planned.table).filter fun column =>
    planned.image.find column ≠ row.find column
  rowClaim.toList ++ (changed.insertionSort (· ≤ ·)).filterMap fun column =>
    (row.find column).bind fun text =>
      if text = executorNull then none
      else some (planned.table, ⟨fkClaimTable planned.table column, text, false⟩)

def cascadeClaims (u : FkUpdate) (writes : List (Nat × Row × Row)) (plan : List PlannedRewrite) :
    List (String × LockRequest) :=
  plan.flatMap (u.rewriteClaims (u.writtenDb writes))

/-- `try_cascade_once`, up to its writes. -/
def tryCascadeOnce (u : FkUpdate) (writes : List (Nat × Row × Row)) (round : LockRound) :
    Except Stop (List PlannedRewrite) := do
  let plan ← (u.cascadePlan writes).mapError .error
  acquireAll (fun name holder => u.deadlockText ("UPDATE cascade on '" ++ name ++ "')") holder)
    round (u.cascadeClaims writes plan)
  return plan

/-- The attempts on the child rows. -/
def cascadePhase (u : FkUpdate) (writes : List (Nat × Row × Row)) :
    Except String (List PlannedRewrite) :=
  retryRounds
    (fun request holder => u.deadlockText ("UPDATE cascade on '" ++ request.table ++ "')") holder)
    (timeoutText "cascade UPDATE") (u.tryCascadeOnce writes) u.cascadeRound u.cascadeRest

/-- `cascade_write` of one row. -/
def cascadeWrite (u : FkUpdate) (state : Tables × TxnManager) (planned : PlannedRewrite) :
    Tables × TxnManager :=
  let rows := (state.1 planned.table).getD []
  let old := rows.getD planned.pos ∅
  let fresh := planned.image.tag u.search.myId
  let key := ((u.schemas planned.table).bind fun schema => old.find (keyCol schema)).getD ""
  (putRows state.1 planned.table (writeRows rows u.search.myId [(planned.pos, old, fresh)]),
    state.2.logUpdate planned.table key old fresh "")

def execUpdateInner (u : FkUpdate) : UpdateOutcome :=
  match u.ownPhase with
  | .error message => ⟨.error message, u.db.tables, u.txn⟩
  | .ok writes =>
    match u.cascadePhase writes with
    | .error message => ⟨.error message, u.writtenTables writes, u.writtenTxn writes⟩
    | .ok plan =>
      let state := plan.foldl u.cascadeWrite (u.writtenTables writes, u.writtenTxn writes)
      ⟨.ok (), state.1, state.2⟩

/-- An error leaves every row and the redo log as they were. -/
def FailureUndone (u : FkUpdate) : Prop :=
  ∀ message, u.execUpdateInner.result = .error message →
    u.execUpdateInner.tables = u.db.tables ∧ u.execUpdateInner.txn.redoOps = u.txn.redoOps

/-- The statement comes to rewrite these rows: nothing refuses them, and their claims are won. -/
structure OwnClear (u : FkUpdate) (writes : List (Nat × Row × Row)) : Prop where
  early : u.refusedEarly = none
  stored : (u.db.tables u.table).isNone = false
  versions : u.newVersions = .ok writes
  chain : u.dryRun writes = none
  unique : u.uniqueViolation writes = none
  claims : ClaimsWon (u.rowClaims ++ u.newKeyClaims writes) u.ownRound u.ownRest

/-- The foreign-key actions of the rows are not refused, and the claims on the child rows are
won. -/
def CascadeClear (u : FkUpdate) (writes : List (Nat × Row × Row)) : Prop :=
  ∃ plan, u.cascadePlan writes = .ok plan ∧
    ClaimsWon (u.cascadeClaims writes plan) u.cascadeRound u.cascadeRest

end FkUpdate

variable {round : LockRound}

theorem acquireAll_eq_ok_iff {deadlock : String → Nat → String} :
    ∀ {requests : List (String × LockRequest)},
      acquireAll deadlock round requests = .ok () ↔ firstRefused requests round = none
  | [] => by simp [acquireAll, firstRefused]
  | (name, request) :: requests => by
      have ih : acquireAll deadlock round requests = .ok () ↔ firstRefused requests round = none :=
        acquireAll_eq_ok_iff
      unfold firstRefused at ih ⊢
      rw [acquireAll, List.map_cons]
      cases hprobe : round.probe request with
      | granted => rw [List.find?_cons_of_neg (by simp [hprobe])]; exact ih
      | conflict holder | deadlock holder => rw [List.find?_cons_of_pos (by simp [hprobe])]; simp

/-- A claim that is refused stops the attempt: by a deadlock, or to wait for it. -/
theorem acquireAll_of_firstRefused (deadlock : String → Nat → String) {refused : LockRequest} :
    ∀ {requests : List (String × LockRequest)},
      firstRefused requests round = some refused →
        (∃ holder, round.probe refused = .conflict holder ∧
          acquireAll deadlock round requests = .error (.conflict refused holder)) ∨
        (∃ holder message, round.probe refused = .deadlock holder ∧
          acquireAll deadlock round requests = .error (.error message))
  | [], h => by simp [firstRefused] at h
  | (name, request) :: requests, h => by
      rw [acquireAll]
      rw [firstRefused, List.map_cons] at h
      cases hprobe : round.probe request with
      | granted =>
        rw [List.find?_cons_of_neg (by simp [hprobe])] at h
        exact acquireAll_of_firstRefused deadlock h
      | conflict holder =>
        rw [List.find?_cons_of_pos (by simp [hprobe])] at h
        obtain rfl := Option.some.inj h
        exact .inl ⟨holder, hprobe, rfl⟩
      | deadlock holder =>
        rw [List.find?_cons_of_pos (by simp [hprobe])] at h
        obtain rfl := Option.some.inj h
        exact .inr ⟨holder, _, hprobe, rfl⟩

theorem acquireAll_append {deadlock : String → Nat → String} {later : List (String × LockRequest)} :
    ∀ {requests : List (String × LockRequest)},
      acquireAll deadlock round (requests ++ later) =
        (do acquireAll deadlock round requests; acquireAll deadlock round later)
  | [] => rfl
  | (name, request) :: requests => by
      rw [List.cons_append, acquireAll, acquireAll]
      cases hprobe : round.probe request with
      | granted => exact acquireAll_append
      | conflict holder => rfl
      | deadlock holder => rfl

section

variable {α : Type} {deadlock timeout : LockRequest → Nat → String}
  {attempt : LockRound → Except Stop α}

theorem retryRounds_eq_ok {a : α} : ∀ {round : LockRound} {rest : List LockRound},
    retryRounds deadlock timeout attempt round rest = .ok a → ∃ round, attempt round = .ok a
  | round, rest, h => by
      cases hattempt : attempt round with
      | ok b =>
        have hb : retryRounds deadlock timeout attempt round rest = .ok b := by
          cases rest <;> simp [retryRounds, settle, hattempt]
        exact ⟨round, Except.ok.inj (hb.symm.trans h) ▸ hattempt⟩
      | error stop =>
        cases stop with
        | error message => cases rest <;> simp [retryRounds, settle, hattempt] at h
        | conflict request holder =>
          cases rest with
          | nil => simp [retryRounds, settle, hattempt] at h
          | cons next rest =>
            simp only [retryRounds, settle, hattempt] at h
            cases hwait : round.wait request with
            | granted =>
              rw [hwait] at h
              exact retryRounds_eq_ok h
            | conflict holder | deadlock holder => simp [hwait] at h

/-- An attempt that only its claims can stop succeeds in the end when they are won. -/
theorem retryRounds_eq_ok_iff {a : α} {say : String → Nat → String}
    {requests : List (String × LockRequest)}
    (hattempt : ∀ round, attempt round = (acquireAll say round requests).map fun _ => a) :
    ∀ {round : LockRound} {rest : List LockRound},
      retryRounds deadlock timeout attempt round rest = .ok a ↔ ClaimsWon requests round rest
  | round, rest => by
      cases hfirst : firstRefused requests round with
      | none =>
        have hok : attempt round = .ok a := by
          rw [hattempt, acquireAll_eq_ok_iff.mpr hfirst]
          rfl
        cases rest <;> simp [retryRounds, settle, ClaimsWon, hok, hfirst]
      | some refused =>
        rcases acquireAll_of_firstRefused say hfirst with
          ⟨holder, hprobe, hstop⟩ | ⟨holder, message, hprobe, hstop⟩
        · have hconflict : attempt round = .error (.conflict refused holder) := by
            rw [hattempt, hstop]
            rfl
          cases rest with
          | nil => simp [retryRounds, settle, ClaimsWon, hconflict, hfirst]
          | cons next rest =>
            have ih : retryRounds deadlock timeout attempt next rest = .ok a ↔
                ClaimsWon requests next rest :=
              retryRounds_eq_ok_iff hattempt
            cases hwait : round.wait refused <;>
              simp [retryRounds, settle, ClaimsWon, hconflict, hfirst, hprobe, hwait, ih]
        · have herror : attempt round = .error (.error message) := by
            rw [hattempt, hstop]
            rfl
          cases rest <;> simp [retryRounds, settle, ClaimsWon, herror, hfirst, hprobe]

end

namespace FkUpdate

open ExceptFold

variable {u : FkUpdate} {writes : List (Nat × Row × Row)}

theorem ownAttempt_eq (hversions : u.newVersions = .ok writes) (hchain : u.dryRun writes = none)
    (hunique : u.uniqueViolation writes = none) (round : LockRound) :
    u.ownAttempt round =
      (acquireAll (fun name holder => u.deadlockText ("UPDATE '" ++ name ++ "'") holder) round
        (u.rowClaims ++ u.newKeyClaims writes)).map fun _ => writes := by
  have hrest : (match u.dryRun writes with
      | some refused => .error (.error refused)
      | none => do
          acquireAll (fun name holder => u.deadlockText ("UPDATE '" ++ name ++ "'") holder) round
            (u.newKeyClaims writes)
          match u.uniqueViolation writes with
          | some violation => .error (.error violation)
          | none => return writes) =
      (acquireAll (fun name holder => u.deadlockText ("UPDATE '" ++ name ++ "'") holder) round
        (u.newKeyClaims writes)).map fun _ => writes := by
    rw [hchain, hunique]
    rfl
  rw [acquireAll_append, ownAttempt, hversions]
  cases acquireAll _ round u.rowClaims with
  | error stop => rfl
  | ok _ => exact hrest

theorem ownAttempt_eq_ok (h : u.ownAttempt round = .ok writes) :
    u.newVersions = .ok writes ∧ u.dryRun writes = none ∧ u.uniqueViolation writes = none := by
  obtain ⟨-, -, h⟩ := bind_eq_ok_iff.mp h
  obtain ⟨found, hversions, h⟩ := bind_eq_ok_iff.mp h
  cases hchain : u.dryRun found with
  | some refused => simp [hchain] at h
  | none =>
    rw [hchain] at h
    obtain ⟨-, -, h⟩ := bind_eq_ok_iff.mp h
    cases hunique : u.uniqueViolation found with
    | some violation => simp [hunique] at h
    | none =>
      rw [hunique] at h
      obtain rfl : found = writes := Except.ok.inj h
      exact ⟨mapError_eq_ok_iff.mp hversions, hchain, hunique⟩

theorem ownPhase_eq_ok_iff : u.ownPhase = .ok writes ↔ u.OwnClear writes := by
  rw [ownPhase]
  constructor
  · intro h
    cases hearly : u.refusedEarly with
    | some refused => simp [hearly] at h
    | none =>
      rw [hearly] at h
      cases hstored : (u.db.tables u.table).isNone with
      | true => simp [hstored] at h
      | false =>
        simp only [hstored, Bool.false_eq_true, if_false] at h
        obtain ⟨round, hround⟩ := retryRounds_eq_ok h
        obtain ⟨hversions, hchain, hunique⟩ := ownAttempt_eq_ok hround
        exact ⟨hearly, hstored, hversions, hchain, hunique,
          (retryRounds_eq_ok_iff (ownAttempt_eq hversions hchain hunique)).mp h⟩
  · intro h
    rw [h.early]
    simp only [h.stored, Bool.false_eq_true, if_false]
    exact (retryRounds_eq_ok_iff (ownAttempt_eq h.versions h.chain h.unique)).mpr h.claims

theorem tryCascadeOnce_eq {plan : List PlannedRewrite} (hplan : u.cascadePlan writes = .ok plan)
    (round : LockRound) :
    u.tryCascadeOnce writes round =
      (acquireAll (fun name holder => u.deadlockText ("UPDATE cascade on '" ++ name ++ "')") holder)
        round (u.cascadeClaims writes plan)).map fun _ => plan := by
  rw [tryCascadeOnce, hplan]
  rfl

theorem cascadePhase_eq_ok_iff :
    (∃ plan, u.cascadePhase writes = .ok plan) ↔ u.CascadeClear writes := by
  rw [cascadePhase]
  constructor
  · rintro ⟨plan, h⟩
    obtain ⟨round, hround⟩ := retryRounds_eq_ok h
    obtain ⟨found, hplan, hround⟩ := bind_eq_ok_iff.mp hround
    obtain ⟨-, -, hround⟩ := bind_eq_ok_iff.mp hround
    obtain rfl : found = plan := Except.ok.inj hround
    have hplan := mapError_eq_ok_iff.mp hplan
    exact ⟨found, hplan, (retryRounds_eq_ok_iff (tryCascadeOnce_eq hplan)).mp h⟩
  · rintro ⟨plan, hplan, hclaims⟩
    exact ⟨plan, (retryRounds_eq_ok_iff (tryCascadeOnce_eq hplan)).mpr hclaims⟩

theorem finish_start (db : CascadeDb) : db.finish CascadeSim.start = [] := by
  simp [CascadeDb.finish, CascadeSim.start]

theorem claimsWon_nil : ∀ (round : LockRound) (rest : List LockRound), ClaimsWon [] round rest
  | _, [] => rfl
  | _, _ :: _ => nofun

theorem cascadeClear_nil (u : FkUpdate) : u.CascadeClear [] := by
  have hplan : u.cascadePlan [] = .ok [] := by
    have horder : u.order ((u.writtenDb []).finish CascadeSim.start) = [] := by
      rw [finish_start]
      exact List.perm_nil.mp (u.order_perm [])
    rw [cascadePlan, ← horder]
    rfl
  exact ⟨[], hplan, claimsWon_nil _ _⟩

theorem writtenTables_ne (h : writes ≠ []) : u.writtenTables writes ≠ u.db.tables := by
  intro heq
  have hrows : some (writeRows (u.db.rowsOf u.table) u.search.myId writes) =
      u.db.tables u.table := by
    rw [← heq]
    simp [writtenTables, putRows]
  have hlength : writes.length = 0 := by
    have hlen := congrArg (fun rows => (rows.getD []).length) hrows
    simpa [writeRows, CascadeDb.rowsOf] using hlen
  exact h (List.length_eq_zero_iff.mp hlength)

/-- A failed UPDATE changes nothing exactly when it fails on its own rows: once these are
written, no foreign-key action may be refused and no claim on a child row lost. -/
theorem failureUndone_iff (u : FkUpdate) :
    u.FailureUndone ↔ ∀ writes, u.OwnClear writes → u.CascadeClear writes := by
  constructor
  · intro h writes hown
    have hphase := ownPhase_eq_ok_iff.mpr hown
    cases hcascade : u.cascadePhase writes with
    | ok plan => exact cascadePhase_eq_ok_iff.mp ⟨plan, hcascade⟩
    | error message =>
      have hexec : u.execUpdateInner =
          ⟨.error message, u.writtenTables writes, u.writtenTxn writes⟩ := by
        simp only [execUpdateInner, hphase, hcascade]
      rw [FailureUndone, hexec] at h
      by_cases hwrites : writes = []
      · exact hwrites ▸ cascadeClear_nil u
      · exact absurd (h message rfl).1 (writtenTables_ne hwrites)
  · intro h message herror
    cases hphase : u.ownPhase with
    | error early => simp [execUpdateInner, hphase]
    | ok writes =>
      obtain ⟨plan, hplan⟩ := cascadePhase_eq_ok_iff.mpr (h writes (ownPhase_eq_ok_iff.mp hphase))
      simp [execUpdateInner, hphase, hplan] at herror

/-- `UPDATE parents SET id = 2 WHERE id = 1`, with a child row that follows the key and that
another transaction holds past the deadline. -/
def moveParent : FkUpdate where
  db :=
    { coll := asciiCollation
      catalog := [("children", [⟨"parent", [⟨"parents", "id", .restrict, .cascade⟩], none⟩]),
        ("parents", [])]
      tables := fun name =>
        if name = "parents" then
          some [Row.ofCells [("id", "1"), ("_xmin", "3"), ("_xmax", "0")]]
        else if name = "children" then
          some [Row.ofCells [("id", "10"), ("parent", "1"), ("_xmin", "3"), ("_xmax", "0")]]
        else none
      absent := fun _ _ _ => false }
  schemas := fun _ => some ⟨[⟨"id", true, false⟩], [], []⟩
  table := "parents"
  search :=
    { schema := ⟨[⟨"id", true, false⟩], [], []⟩, rows := [], rowPkPos := none
      activeTxnIds := {7}, curTxn := 0, myId := 8, peekNextId := 9, minRows := 64
      whereTrue := fun row => row.find "id" = some "1"
      hasCondition := true, hasSubquery := false, pkEqValue := some "1", gathered := none }
  changedCols := ["id"]
  refusedEarly := none
  rewritten := fun row => .ok (row.set "id" "2")
  chainPossible := false
  keyClaims := fun new _ => [⟨"parents", (new.find "id").getD "", false⟩]
  uniqueViolation := fun _ => none
  order := id
  order_perm := fun plan => List.Perm.refl plan
  claimTxnId := 8
  txn := TxnManager.fresh
  ownRound := ⟨fun _ => .granted, fun _ => .granted⟩
  ownRest := []
  cascadeRound :=
    ⟨fun request => if request.table = "children" then .conflict 7 else .granted,
      fun _ => .conflict 7⟩
  cascadeRest := []

theorem failedUpdate_keeps_parent_moved :
    ∃ message, moveParent.execUpdateInner.result = .error message ∧
      moveParent.execUpdateInner.tables "parents" =
        some [Row.ofCells [("id", "1"), ("_xmin", "3"), ("_xmax", "8")],
          Row.ofCells [("id", "2"), ("_xmin", "8"), ("_xmax", "0")]] ∧
      ¬moveParent.FailureUndone := by
  have hresult : moveParent.execUpdateInner.result = .error (timeoutText "cascade UPDATE"
      ⟨"children", "10", false⟩ 7) := by
    decide +kernel
  have htables : moveParent.execUpdateInner.tables "parents" =
      some [Row.ofCells [("id", "1"), ("_xmin", "3"), ("_xmax", "8")],
        Row.ofCells [("id", "2"), ("_xmin", "8"), ("_xmax", "0")]] := by
    decide +kernel
  refine ⟨_, hresult, htables, fun h => ?_⟩
  have hsame := congrFun (h _ hresult).1 "parents"
  rw [htables] at hsame
  revert hsame
  decide +kernel

end FkUpdate

end RusqlEngine
